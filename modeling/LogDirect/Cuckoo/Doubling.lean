import LogDirect.Cuckoo.Solo
import Mathlib.Data.Finset.Sum
import Mathlib.Data.Fintype.EquivFin

/-!
# libcuckoo: doublings that do occur

A thread that runs alone can always bring the table to its next doubling, by inserting keys that
are not there yet: a table of a given hashpower has room for so many of them (`Table.Inv.keys_le`).
So there are runs in which a thread doubles the table while another one is still in
`AllUnlocker`; a table with all locks comes to no harm then (`never_overtakes`). And in every
smaller table there are runs in which a thread is in its critical section while the
table is being doubled (`exclusion_lost`).
-/

namespace LogDirect.Cuckoo

open Lib Lib.Cells Lib.Atomic Lib.Owners

variable {K V : Type} {cfg : Config K} {t : Table K V} {m m' : K → Option V}
  {w w' : LockWorld K V} {tid n : Nat} {u : Uprase K V}

/-! ## Room for keys -/

theorem hashsize_mono {a b : Nat} (h : a ≤ b) : hashsize a ≤ hashsize b := by
  rw [hashsize_eq, hashsize_eq]
  exact Nat.pow_le_pow_right Nat.two_pos h

/-- No more keys than there are slots, old and new. -/
theorem Table.Inv.keys_le (h : t.Inv cfg m) :
    (keys m).ncard ≤ 2 * (hashsize t.hashpower * slotPerBucket) := by
  let cells := Finset.range (hashsize t.hashpower) ×ˢ Finset.range slotPerBucket
  have hcell : ∀ {i s : Nat}, i < hashsize t.hashpower → s < slotPerBucket → (i, s) ∈ cells :=
    fun hi hs => Finset.mk_mem_product (Finset.mem_range.mpr hi) (Finset.mem_range.mpr hs)
  have hocc : occ (Sum.elim t.oldCells t.buckets.cells) ⊆ ↑(cells.disjSum cells) := by
    rintro (⟨i, s⟩ | ⟨i, s⟩) hp
    · obtain ⟨e, he⟩ := Option.isSome_iff_exists.mp hp
      have he : t.oldCells (i, s) = some e := he
      rw [Table.oldCells] at he
      split at he
      · cases he
      · rename_i hmig
        obtain ⟨old, hold, he⟩ := Option.bind_eq_some_iff.mp he
        obtain ⟨-, old', hold', hhp, -⟩ := h.pending (lockInd i) (Bool.eq_false_iff.mpr hmig)
        cases hold.symm.trans hold'
        obtain ⟨hs, -, hhome⟩ := h.oldPlaced old hold i s e he
        refine Finset.mem_coe.mpr (Finset.inl_mem_disjSum.mpr (hcell ?_ hs))
        exact Nat.lt_of_lt_of_le hhome.lt (hashsize_mono (by omega))
    · obtain ⟨e, he⟩ := Option.isSome_iff_exists.mp hp
      obtain ⟨hs, -, hhome⟩ := h.placed i s e he
      exact Finset.mem_coe.mpr (Finset.inr_mem_disjSum.mpr (hcell hhome.lt hs))
  calc (keys m).ncard
      = (occ (Sum.elim t.oldCells t.buckets.cells)).ncard :=
        h.both.keys_ncard.2.trans h.both.count.symm
    _ ≤ (↑(cells.disjSum cells) : Set _).ncard := Set.ncard_le_ncard hocc (Finset.finite_toSet _)
    _ = 2 * (hashsize t.hashpower * slotPerBucket) := by
        rw [Set.ncard_coe_finset, Finset.card_disjSum, Finset.card_product, Finset.card_range,
          Finset.card_range, Nat.two_mul]

/-! ## What a thread alone leaves as it is -/

/-- The others stay where they are, and as long as the table is not doubled its locks stay. -/
structure Stays (tid : Nat) (w w' : LockWorld K V) : Prop where
  threads : ∀ other, other ≠ tid → w'.threads other = w.threads other
  grown : w.table.hashpower ≤ w'.table.hashpower
  same : w'.table.hashpower = w.table.hashpower →
    w'.arrays = w.arrays ∧ w'.oldHashpower = w.oldHashpower

theorem Stays.refl (w : LockWorld K V) : Stays tid w w :=
  ⟨fun _ _ => rfl, Nat.le_refl _, fun _ => ⟨rfl, rfl⟩⟩

theorem Stays.trans {w₁ w₂ : LockWorld K V} (h : Stays tid w w₁) (h' : Stays tid w₁ w₂) :
    Stays tid w w₂ where
  threads other hother := (h'.threads other hother).trans (h.threads other hother)
  grown := Nat.le_trans h.grown h'.grown
  same heq := by
    have hgrown := h.grown
    have hgrown' := h'.grown
    obtain ⟨harrays, hold⟩ := h.same (by omega)
    obtain ⟨harrays', hold'⟩ := h'.same (by omega)
    exact ⟨harrays'.trans harrays, hold'.trans hold⟩

variable [DecidableEq K]

theorem Solo.stays (h : Solo cfg tid w m) (hgo : w.go cfg tid = some w') : Stays tid w w' := by
  have hgrown : w.table.hashpower ≤ w'.table.hashpower := by
    rcases nears_or_acts h hgo with hnears | hacts
    · exact Nat.le_of_eq (congrArg (fun v => v.table.hashpower) hnears.world).symm
    · obtain ⟨c, hc⟩ := advance_called hacts.advance
      obtain ⟨t', pc', m', hadv, -, hle, -⟩ := good_advance h.table (h.known tid) hc
      cases hacts.advance.symm.trans hadv
      exact hle
  refine ⟨fun other hother => go_threads hgo hother, hgrown, fun hsame => ?_⟩
  cases moves_go hgo with
  | @swap hp t' s hdouble =>
    have hsame : (w.swap t' tid).table.hashpower = w.table.hashpower := hsame
    rw [swap_table] at hsame
    obtain ⟨t₂, hdouble', -, hcase⟩ := h.table.cuckooFastDouble hp
    obtain ⟨hst, rfl⟩ := Prod.mk.inj (Option.some.inj (hdouble.symm.trans hdouble'))
    rcases hcase with ⟨-, -, hhp⟩ | ⟨hnot, -⟩
    · omega
    · exact absurd hst.symm hnot
  | _ => exact ⟨rfl, rfl⟩

theorem RunsAlone.stays (h : Solo cfg tid w m) (hrun : RunsAlone cfg n tid w w') :
    Stays tid w w' := by
  obtain ⟨tr, hrun, hmeets⟩ := hrun
  have hkeeps : ∀ (w₁ : LockWorld K V) act w₂, ((∃ m₁, Solo cfg tid w₁ m₁) ∧ Stays tid w w₁) →
      act = .run tid → (lockSystem cfg n).step w₁ act = some w₂ →
      (∃ m₂, Solo cfg tid w₂ m₂) ∧ Stays tid w w₂ := by
    rintro w₁ act w₂ ⟨⟨m₁, h₁⟩, hstays⟩ rfl hstep
    obtain ⟨a', -, -, hf⟩ := locks_step h₁.locks h₁.follows h₁.safe hstep
    exact ⟨⟨a'.obj, h₁.go hstep hf.table⟩, hstays.trans (h₁.stays hstep)⟩
  exact (hrun.invariant ⟨⟨m, h⟩, .refl w⟩ hkeeps hmeets).2

/-! ## One insertion -/

/-- An insertion has been answered, or has found no room in a table of this hashpower. -/
def Inserted (u : Uprase K V) (hp : Nat) (t : Table K V) (pc : Pc K V) : Prop :=
  t.hashpower = hp ∧ ((∃ r, pc = .answered r ∧ r ≠ .threw) ∨ pc = .expanding u hp)

theorem ends_insert (h : t.Inv cfg m) (u : Uprase K V) :
    Ends cfg (Inserted u t.hashpower) t (.snapshot (.uprase u)) := by
  have hcounts : Counts t.hashpower (Inserted u t.hashpower) :=
    fun t' r hhp hr => ⟨hhp, .inl ⟨r, rfl, hr⟩⟩
  refine .step rfl (ends_locking h hcounts fun u' hu t' _ hhp => ?_)
  cases hu
  exact .here ⟨hhp, .inr rfl⟩

omit [DecidableEq K] in
theorem free_of_resting {s : Stage K V} (h : s.resting = true) : s = .free s.pc := by
  cases s with
  | free pc => rfl
  | _ => cases h

/-- The insertion is done, or the thread has all locks and is about to double the table. -/
theorem insert_once (h : Solo cfg tid w m) (hpc : (w.threads tid).pc = .snapshot (.uprase u))
    (n : Nat) : ∃ w' m', RunsAlone cfg n tid w w' ∧ Solo cfg tid w' m' ∧
      w'.table.hashpower = w.table.hashpower ∧
      ((∃ r, w'.threads tid = .free (.answered r) ∧ (r, m') = (Call.uprase u).exec m) ∨
        ∃ first, w'.threads tid = .insideAll u w.table.hashpower first) := by
  obtain ⟨w₁, m₁, halone, hsolo, ⟨hhp, hres⟩, hout⟩ :=
    (ends_insert h.table u).solo n rfl hpc h rfl
  obtain ⟨w₂, halone', hsolo', hworld, -, hsettled⟩ := settles hsolo n
  have hpc₂ : (w₂.threads tid).pc = (w₁.threads tid).pc :=
    congrFun (congrArg World.threads hworld) tid
  have hhp₂ : w₂.table.hashpower = w.table.hashpower :=
    (congrArg (fun v => v.table.hashpower) hworld).trans hhp
  refine ⟨w₂, m₁, halone.trans halone', hsolo', hhp₂, ?_⟩
  rcases hres with ⟨r, hr, hne⟩ | hexp
  · left
    rw [hr] at hpc₂
    rcases hsettled with hrest | ⟨w₃, -, hacts⟩
    · refine ⟨r, ?_, ?_⟩
      · rw [free_of_resting hrest, hpc₂]
      · rcases hout with ⟨hphase, -⟩ | ⟨r', hr', heff⟩
        · rw [hr] at hphase
          cases hphase
        · cases hr.symm.trans hr'
          exact heff.resolve_right fun hthrew => hne hthrew.1
    · have hadv := hacts.advance
      rw [hpc₂] at hadv
      cases hadv
  · right
    rw [hexp] at hpc₂
    rcases hsettled with hrest | ⟨w₃, -, hacts⟩
    · exact absurd (congrArg Pc.phase hpc₂) (resting_phase hrest)
    · exact hacts.full u _ hpc₂

/-! ## To the next doubling -/

omit [DecidableEq K] in
/-- A call is made or answered. -/
theorem Solo.call {pc pc' : Pc K V} (h : Solo cfg tid w m) (hs : w.threads tid = .free pc)
    (hok : pc'.Ok cfg w.table.hashpower) : Solo cfg tid (w.set tid (.free pc')) m := by
  have hother : ∀ other, other ≠ tid →
      (w.set tid (.free pc')).threads other = w.threads other :=
    fun other hne => Function.update_of_ne hne _ _
  have hself : (w.set tid (.free pc')).threads tid = .free pc' := Function.update_self ..
  refine ⟨h.locks.set ?_ trivial fun x => ?_, h.table, fun v => ?_, h.owner, ?_, ?_⟩
  · rw [hs]
    rfl
  · rw [hs]
    exact Iff.rfl
  · by_cases hv : v = tid
    · rw [hv, hself]
      exact hok
    · rw [hother v hv]
      exact h.known v
  · refine h.quiet.imp_left fun hquiet other hne => ?_
    rw [hother other hne]
    exact hquiet other hne
  · rw [hself]
    trivial

omit [DecidableEq K] in
theorem stays_set (w : LockWorld K V) (s : Stage K V) : Stays tid w (w.set tid s) :=
  ⟨fun _ hother => Function.update_of_ne hother _ _, Nat.le_refl _, fun _ => ⟨rfl, rfl⟩⟩

theorem step_invoke (cfg : Config K) (hs : w.threads tid = .free .idle) (c : Call K V) :
    w.step cfg (.invoke tid c) = some (w.set tid (.free (.snapshot c))) := by
  rw [LockWorld.step, hs]

theorem step_respond (cfg : Config K) {r : Ret V} (hs : w.threads tid = .free (.answered r)) :
    w.step cfg (.respond tid) = some (w.set tid (.free .idle)) := by
  rw [LockWorld.step, hs]

/-- The thread has taken all locks of a table that has not been doubled since. -/
structure AtDoubling (cfg : Config K) (n tid : Nat) (w w' : LockWorld K V) : Prop where
  run : ∃ tr, (lockSystem cfg n).Run w tr w'
  solo : ∃ m', Solo cfg tid w' m'
  stays : Stays tid w w'
  hashpower : w'.table.hashpower = w.table.hashpower
  inside : ∃ u first, w'.threads tid = .insideAll u w'.table.hashpower first

theorem AtDoubling.after {w₁ : LockWorld K V} (h : AtDoubling cfg n tid w₁ w')
    (hrun : ∃ tr, (lockSystem cfg n).Run w tr w₁) (hstays : Stays tid w w₁)
    (hhp : w₁.table.hashpower = w.table.hashpower) : AtDoubling cfg n tid w w' := by
  obtain ⟨tr, hrun⟩ := hrun
  obtain ⟨tr', hrun'⟩ := h.run
  exact ⟨⟨tr ++ tr', hrun.trans hrun'⟩, h.solo, hstays.trans h.stays, h.hashpower.trans hhp,
    h.inside⟩

theorem run_step {act : Act K V} (n : Nat) (h : w.step cfg act = some w') :
    ∃ tr, (lockSystem cfg n).Run w tr w' :=
  ⟨[] ++ [(w, act)], TSys.Run.nil.snoc h⟩

/-- From the start of an insertion: to the doubling, or to the next call. -/
theorem doubling_or_idle (h : Solo cfg tid w m)
    (hpc : (w.threads tid).pc = .snapshot (.uprase u)) (n : Nat) :
    (∃ w', AtDoubling cfg n tid w w') ∨
      ∃ tr w' m', (lockSystem cfg n).Run w tr w' ∧ Solo cfg tid w' m' ∧ Stays tid w w' ∧
        w'.table.hashpower = w.table.hashpower ∧ w'.threads tid = .free .idle ∧
        m' = ((Call.uprase u).exec m).2 := by
  obtain ⟨w₁, m₁, halone, hsolo, hhp, hres⟩ := insert_once h hpc n
  have hstays := halone.stays h
  obtain ⟨tr, hrun, -⟩ := halone
  rcases hres with ⟨r, hs, heff⟩ | ⟨first, hs⟩
  · right
    have hstep : (lockSystem cfg n).step w₁ (.respond tid) = some (w₁.set tid (.free .idle)) :=
      step_respond cfg hs
    exact ⟨tr ++ [(w₁, .respond tid)], w₁.set tid (.free .idle), m₁, hrun.snoc hstep,
      hsolo.call hs trivial, hstays.trans (stays_set w₁ _), hhp, Function.update_self ..,
      congrArg Prod.snd heff⟩
  · rw [← hhp] at hs
    exact .inl ⟨w₁, ⟨tr, hrun⟩, ⟨m₁, hsolo⟩, hstays, hhp, u, first, hs⟩

/-- A new key. -/
theorem keys_insert (h : (keys m).Finite) {key : K} (hkey : key ∉ keys m) (v : V) :
    (keys ((Call.insertOrAssign key v).exec m).2).ncard = (keys m).ncard + 1 := by
  have heq : keys ((Call.insertOrAssign key v).exec m).2 = insert key (keys m) := by
    rw [Call.exec_insertOrAssign]
    ext k
    rw [Set.mem_insert_iff]
    by_cases hk : k = key
    · simp [keys, hk]
    · simp [keys, hk]
  rw [heq, Set.ncard_insert_of_notMem hkey h]

/-- A thread that has nothing to do inserts keys until there is no room for the next one. -/
theorem doubling_from_idle [Infinite K] (v : V) (h : Solo cfg tid w m)
    (hs : w.threads tid = .free .idle) (n : Nat) : ∃ w', AtDoubling cfg n tid w w' := by
  -- on the room that is left
  induction hroom : 2 * (hashsize w.table.hashpower * slotPerBucket) + 1 - (keys m).ncard
      generalizing w m with
  | zero =>
    have hle := h.table.keys_le
    omega
  | succ room ih =>
    have hfinite := h.table.both.keys_ncard.1
    obtain ⟨key, hkey⟩ := hfinite.exists_notMem
    have hcall : Solo cfg tid (w.set tid (.free (.snapshot (.insertOrAssign key v)))) m :=
      h.call hs trivial
    have hself : (w.set tid (.free (.snapshot (.insertOrAssign key v)))).threads tid =
        .free (.snapshot (.insertOrAssign key v)) := Function.update_self ..
    have hpc := congrArg Stage.pc hself
    have hrun := run_step n (step_invoke cfg hs (.insertOrAssign key v))
    rcases doubling_or_idle hcall hpc n with
      ⟨w', hw'⟩ | ⟨tr, w₁, m₁, hrun₁, hsolo, hstays, hhp, hidle, hm₁⟩
    · exact ⟨w', hw'.after hrun (stays_set w _) rfl⟩
    · have hless : (keys m₁).ncard = (keys m).ncard + 1 := by
        rw [hm₁]
        exact keys_insert hfinite hkey v
      have hhp : w₁.table.hashpower = w.table.hashpower := hhp
      obtain ⟨w', hw'⟩ := ih hsolo hidle (by rw [hhp]; omega)
      obtain ⟨tr₀, hrun₀⟩ := hrun
      exact ⟨w', hw'.after ⟨tr₀ ++ tr, hrun₀.trans hrun₁⟩ ((stays_set w _).trans hstays) hhp⟩

/-- The same in the middle of an insertion that begins again. -/
theorem doubling_from_snapshot [Infinite K] (h : Solo cfg tid w m)
    (hpc : (w.threads tid).pc = .snapshot (.uprase u)) (n : Nat) :
    ∃ w', AtDoubling cfg n tid w w' := by
  rcases doubling_or_idle h hpc n with hw' | ⟨tr, w₁, m₁, hrun, hsolo, hstays, hhp, hidle, -⟩
  · exact hw'
  · obtain ⟨w', hw'⟩ := doubling_from_idle u.val hsolo hidle n
    exact ⟨w', hw'.after ⟨tr, hrun⟩ hstays hhp⟩

/-! ## The doubling -/

/-- Nothing keeps the table from being doubled. -/
def Config.Roomy (cfg : Config K) : Prop :=
  cfg.maximumHashpower = none ∧ ∀ size capacity, cfg.loadFactorTooLow size capacity = false

omit [DecidableEq K] in
theorem Config.Roomy.valid (h : cfg.Roomy) (t : Table K V) :
    t.checkResizeValidity cfg t.hashpower (t.hashpower + 1) = .ok := by
  obtain ⟨hmax, hlow⟩ := h
  rw [Table.checkResizeValidity, hmax, hlow, if_neg (by simp), if_neg (by simp), if_neg (by simp)]

/-- The state between the two steps of the doubling, with the locks that there are then. -/
theorem Solo.doubles (h : Solo cfg tid w m) (hroomy : cfg.Roomy) {first : Nat}
    (hs : w.threads tid = .insideAll u w.table.hashpower first) :
    ∃ w', w.go cfg tid = some w' ∧ Solo cfg tid w' m ∧ w'.threads tid = .swapped u first ∧
      w'.table.hashpower = w.table.hashpower + 1 ∧ w'.hashpower = w.oldHashpower ∧
      w'.oldHashpower = w.table.hashpower ∧ w.arrays.length ≤ w'.arrays.length ∧
      (w.table.numLocks < kMaxNumLocks → w'.arrays.length = w.arrays.length + 1) ∧
      ∀ x : LockId, x.1 < w.arrays.length → w'.owner x = w.owner x := by
  obtain ⟨t', hdouble, hinv, hcase⟩ := h.table.cuckooFastDouble w.table.hashpower
  have hvalid := hroomy.valid w.table
  rw [hvalid] at hdouble
  obtain ⟨-, -, hhp⟩ := hcase.resolve_right fun hnot => hnot.1 hvalid
  have hgo : w.go cfg tid = some ((w.swap t' tid).set tid (.swapped u first)) := by
    rw [LockWorld.go, hs]
    change w.goInsideAll cfg tid u w.table.hashpower first = _
    rw [LockWorld.goInsideAll, hdouble]
    rfl
  have hshown : w.hashpower = w.table.hashpower := h.shown (by rw [hs]; rfl)
  have htable : ((w.swap t' tid).set tid (.swapped u first)).table = t' := swap_table t'
  refine ⟨_, hgo, h.go hgo (by rw [htable]; exact hinv), Function.update_self .., ?_, ?_⟩
  · rw [htable]
    exact hhp
  change (w.swap t' tid).hashpower = w.oldHashpower ∧ (w.swap t' tid).oldHashpower = _ ∧
    _ ≤ (w.swap t' tid).arrays.length ∧ (_ → (w.swap t' tid).arrays.length = _) ∧
    ∀ x : LockId, _ → (w.swap t' tid).owner x = _
  rw [LockWorld.swap]
  by_cases hnum : t'.numLocks = w.table.numLocks
  · rw [if_pos hnum]
    refine ⟨rfl, hshown, Nat.le_refl _, fun hlt => absurd hnum ?_, fun _ _ => rfl⟩
    have hold := h.table.locks
    have hnew := hinv.locks
    rw [hhp, hashsize_succ] at hnew
    have hpos := hashsize_pos w.table.hashpower
    omega
  · rw [if_neg hnum]
    have hlen : (w.arrays ++ [t'.numLocks]).length = w.arrays.length + 1 := List.length_append
    refine ⟨rfl, hshown, ?_, fun _ => hlen, fun x hx => if_neg fun hcond => ?_⟩
    · exact Nat.le_of_lt (Nat.lt_of_lt_of_eq (Nat.lt_succ_self _) hlen.symm)
    · have hxa : x.1 = w.arrays.length := hcond.1
      omega

/-- The locks of the array are given up. -/
theorem gives_up {pc : Pc K V} {array i k : Nat} (hs : w.threads tid = .releasingAll pc array i)
    (hk : w.arrays[array]? = some k) (hi : i ≤ k) (cfg : Config K) (n : Nat) :
    ∃ w', RunsAlone cfg n tid w w' ∧ w'.threads tid = .releasingAll pc array k ∧
      w'.arrays = w.arrays ∧ w'.table = w.table := by
  -- on the locks that are left
  induction hleft : k - i generalizing w i with
  | zero =>
    have hik : i = k := by omega
    exact ⟨w, .refl w, hik ▸ hs, rfl, rfl⟩
  | succ left ih =>
    let w₁ := (w.unlock (array, i)).set tid (.releasingAll pc array (i + 1))
    have hs₁ : w₁.threads tid = .releasingAll pc array (i + 1) := Function.update_self ..
    have hgo : w.go cfg tid = some w₁ := by
      rw [LockWorld.go, hs]
      change w.goReleasingAll tid pc array i = _
      rw [LockWorld.goReleasingAll, hk, Option.map_some, if_pos (by omega)]
    obtain ⟨w', halone, hs', harrays, htable⟩ := ih hs₁ hk (by omega) (by omega)
    exact ⟨w', .trans (.single hgo) halone, hs', harrays, htable⟩

omit [DecidableEq K] in
/-- When all locks are free, any other thread may be the next to run alone. -/
theorem Solo.switch {other : Nat} (h : Solo cfg tid w m) (hnone : ∀ x, w.owner x = none)
    (hs : w.threads other = .free .idle)
    (hquiet : (∀ v, v ≠ other → (w.threads v).unlocking = false) ∨
      w.table.numLocks = kMaxNumLocks) : Solo cfg other w m := by
  refine ⟨h.locks, h.table, h.known, fun x v hx => ?_, hquiet, ?_⟩
  · rw [hnone x] at hx
    cases hx
  · rw [hs]
    trivial

theorem step_swapped (cfg : Config K) {first : Nat} (hs : w.threads tid = .swapped u first) :
    w.go cfg tid = some (w.goSwapped tid u first) := by
  rw [LockWorld.go, hs]

/-! ## Tables with all locks -/

omit [DecidableEq K] in
theorem goSwapped_self (w : LockWorld K V) (tid first : Nat) (u : Uprase K V) :
    (w.goSwapped tid u first).threads tid = .releasingAll (.snapshot (.uprase u)) first 0 := by
  rw [LockWorld.goSwapped]
  exact Function.update_self ..

/-- A thread doubles the table and comes to the end of `AllUnlocker`. -/
theorem doubles_and_gives_up [Infinite K] (v : V) (hroomy : cfg.Roomy) (hn : defaultSize < 2 * n) :
    ∃ (tr : List (LockWorld K V × Act K V)) (w : LockWorld K V) (pc : Pc K V),
      (lockSystem cfg n).Run (.create n) tr w ∧ w.threads 0 = .releasingAll pc 0 kMaxNumLocks ∧
      ∀ other, other ≠ 0 → w.threads other = .free .idle := by
  have hstart : LocksFollow cfg (.create n : LockWorld K V) (.start fun _ => none) :=
    locksFollow_start hn
  have hsolo : Solo cfg 0 (.create n : LockWorld K V) fun _ => none :=
    hstart.solo fun x other hx => by cases hx
  obtain ⟨w₁, hat⟩ := doubling_from_idle v hsolo rfl n
  obtain ⟨tr₁, hrun₁⟩ := hat.run
  obtain ⟨m₁, hsolo₁⟩ := hat.solo
  obtain ⟨u, first, hs₁⟩ := hat.inside
  have hfirst : first + 1 = w₁.arrays.length := by
    have hlast := hsolo₁.last
    rw [hs₁] at hlast
    exact hlast
  obtain ⟨w₂, hgo₂, hsolo₂, hs₂, -⟩ := hsolo₁.doubles hroomy hs₁
  have hgo₃ := step_swapped cfg hs₂
  have halone : RunsAlone cfg n 0 w₁ (w₂.goSwapped 0 u first) :=
    .trans (.single hgo₂) (.single hgo₃)
  -- there is one array, before and after
  obtain ⟨a₁, -, hfollow₁⟩ := locksFollow_run hn hrun₁
  obtain ⟨tr₃, hrun₃, -⟩ := id halone
  obtain ⟨a₃, -, hfollow₃⟩ := locksFollow_run hn (hrun₁.trans hrun₃)
  rw [hfollow₁.arrays, List.length_singleton] at hfirst
  obtain rfl : first = 0 := Nat.succ.inj hfirst
  have hk : (w₂.goSwapped 0 u 0).arrays[0]? = some kMaxNumLocks := by
    rw [hfollow₃.arrays]
    rfl
  obtain ⟨w₄, halone', hs₄, -⟩ := gives_up (goSwapped_self w₂ 0 0 u) hk (Nat.zero_le _) cfg n
  obtain ⟨tr₄, hrun₄, -⟩ := halone.trans halone'
  refine ⟨tr₁ ++ tr₄, w₄, _, hrun₁.trans hrun₄, hs₄, fun other hother => ?_⟩
  rw [(halone.trans halone').threads hother, hat.stays.threads other hother]
  rfl

/-- There another one overtakes it: it is about to double the table once more. -/
theorem doubles_behind [Infinite K] (v : V) (hroomy : cfg.Roomy) (hn : defaultSize < 2 * n) :
    ∃ (w : LockWorld K V) (pc : Pc K V) (u : Uprase K V) (first : Nat),
      (lockSystem cfg n).Reachable w ∧ w.threads 0 = .releasingAll pc 0 kMaxNumLocks ∧
      w.threads 1 = .insideAll u w.table.hashpower first ∧
      ∃ w', w.step cfg (.run 1) = some w' ∧ w'.table.hashpower = w.table.hashpower + 1 := by
  obtain ⟨tr, w, pc, hrun, hs, hidle⟩ := doubles_and_gives_up v hroomy hn
  obtain ⟨a, -, hfollow⟩ := locksFollow_run hn hrun
  have hnone : ∀ x other, w.owner x ≠ some other := by
    intro x other hx
    have hholds : (w.threads other).Holds w.arrays x := (hfollow.locks.owned x other).mp hx
    by_cases hother : other = 0
    · rw [hother, hs, hfollow.arrays] at hholds
      obtain ⟨⟨k, hk, hlt⟩, hplace⟩ := hholds
      obtain ⟨hx0, hk⟩ := List.getElem?_eq_some_iff.mp hk
      rw [List.length_singleton] at hx0
      have hk : k = kMaxNumLocks := by
        rw [← hk, List.getElem_singleton]
      omega
    · rw [hidle other hother] at hholds
      exact hholds
  have hsolo : Solo cfg 1 w a.obj := hfollow.solo fun x other hx => absurd hx (hnone x other)
  obtain ⟨w', hat⟩ := doubling_from_idle v hsolo (hidle 1 Nat.one_ne_zero) n
  obtain ⟨tr', hrun'⟩ := hat.run
  obtain ⟨m', hsolo'⟩ := hat.solo
  obtain ⟨u, first, hs'⟩ := hat.inside
  obtain ⟨w₂, hgo₂, -, -, hhp₂, -⟩ := hsolo'.doubles hroomy hs'
  refine ⟨w', pc, u, first, ⟨_, _, rfl, hrun.trans hrun'⟩, ?_, hs', w₂, hgo₂, hhp₂⟩
  rw [hat.stays.threads 0 Nat.zero_ne_one]
  exact hs

/-- A table made for more than half of the default number of elements has one array with all
locks and never gets another one: no step overtakes a thread that is giving up its locks, and
none takes the hashpower that shows during a doubling for its own. -/
theorem never_overtakes (hn : defaultSize < 2 * n) (hreach : (lockSystem cfg n).Reachable w) :
    w.arrays = [kMaxNumLocks] ∧ ∀ act, w.Safe cfg act := by
  obtain ⟨w₀, tr, rfl, hrun⟩ := hreach
  obtain ⟨a, -, hfollow⟩ := locksFollow_run hn hrun
  exact ⟨hfollow.arrays, hfollow.safe⟩

/-- No load factor is too low to double the table. -/
def roomyConfig : Config Nat := ⟨UInt64.ofNat, true, none, fun _ _ => false⟩

theorem roomyConfig_roomy : roomyConfig.Roomy := ⟨rfl, fun _ _ => rfl⟩

theorem never_overtakes_unlocking :
    ∃ (w : LockWorld Nat Nat) (pc : Pc Nat Nat) (u : Uprase Nat Nat) (first : Nat),
      (lockSystem roomyConfig defaultSize).Reachable w ∧
      w.threads 0 = .releasingAll pc 0 kMaxNumLocks ∧
      w.threads 1 = .insideAll u w.table.hashpower first ∧
      (∃ w', w.step roomyConfig (.run 1) = some w' ∧
        w'.table.hashpower = w.table.hashpower + 1) ∧
      w.arrays = [kMaxNumLocks] ∧ ∀ act, w.Safe roomyConfig act := by
  obtain ⟨w, pc, u, first, hreach, hs, hs', hgo⟩ :=
    doubles_behind (V := Nat) 0 roomyConfig_roomy defaultSize_lt
  exact ⟨w, pc, u, first, hreach, hs, hs', hgo, never_overtakes defaultSize_lt hreach⟩

/-! ## Smaller tables -/

theorem blog2Loop_le {buckets k : Nat} (h : buckets ≤ hashsize k) :
    ∀ turns {blog2 : Nat}, blog2 ≤ k → Table.blog2Loop buckets turns blog2 ≤ k := by
  intro turns
  induction turns with
  | zero => exact fun hle => hle
  | succ turns ih =>
    intro blog2 hle
    rw [Table.blog2Loop]
    split
    · rename_i hlt
      refine ih (Nat.lt_of_le_of_ne hle ?_)
      rintro rfl
      omega
    · exact hle

omit [DecidableEq K] in
/-- A table for at most half of the default number of elements has not all locks. -/
theorem numLocks_small (hn : 2 * n ≤ defaultSize) :
    (Table.create n : Table K V).numLocks < kMaxNumLocks := by
  rw [defaultSize, slotPerBucket, Nat.one_shiftLeft] at hn
  have hbuckets : (n + slotPerBucket - 1) / slotPerBucket ≤ hashsize 15 := by
    rw [slotPerBucket, hashsize_eq]
    omega
  have hle : Table.reserveCalc n ≤ 15 := blog2Loop_le hbuckets _ (Nat.zero_le _)
  have hsize := hashsize_mono hle
  change min (hashsize (Table.reserveCalc n)) kMaxNumLocks < kMaxNumLocks
  rw [kMaxNumLocks, Nat.one_shiftLeft]
  rw [hashsize_eq 15] at hsize
  omega

/-- Two locks are there to be taken, and the hashpower that shows is the expected one. -/
theorem takes_two {pc : Pc K V} {hp array la lb : Nat} (cfg : Config K)
    (hs : w.threads tid = .taking pc hp array [] [la, lb]) (hhp : w.hashpower = hp)
    (ha : w.owner (array, la) = none) (hb : w.owner (array, lb) = none) (n : Nat) :
    ∃ w' held, RunsAlone cfg n tid w w' ∧ w'.threads tid = .inside pc hp array held ∧
      w'.hashpower = w.hashpower ∧ w'.table = w.table ∧ w'.arrays = w.arrays := by
  let w₁ := (w.lock (array, la) tid).set tid (.checking pc hp array la [lb])
  let w₂ := w₁.set tid (.taking pc hp array [la] [lb])
  have hgo₁ : w.go cfg tid = some w₁ := by
    rw [LockWorld.go, hs]
    change w.goTaking tid pc hp array [] [la, lb] = _
    rw [LockWorld.goTaking, if_neg (by simp), if_pos ha, if_pos rfl]
  have hgo₂ : w₁.go cfg tid = some w₂ := by
    have hs₁ : w₁.threads tid = .checking pc hp array la [lb] := Function.update_self ..
    have hhp₁ : w₁.hashpower = hp := hhp
    rw [LockWorld.go, hs₁]
    change some (w₁.goChecking tid pc hp array la [lb]) = _
    rw [LockWorld.goChecking, if_pos hhp₁]
  have hs₂ : w₂.threads tid = .taking pc hp array [la] [lb] := Function.update_self ..
  have hstart : RunsAlone cfg n tid w w₂ := .trans (.single hgo₁) (.single hgo₂)
  -- the last step, with the locks that have been taken
  have hlast : ∀ w₃ held, w₃.threads tid = .taking pc hp array held [] → w₂.go cfg tid = some w₃ →
      w₃.hashpower = w.hashpower → w₃.table = w.table → w₃.arrays = w.arrays →
      ∃ w' held, RunsAlone cfg n tid w w' ∧ w'.threads tid = .inside pc hp array held ∧
        w'.hashpower = w.hashpower ∧ w'.table = w.table ∧ w'.arrays = w.arrays := by
    intro w₃ held hs₃ hgo₃ hshown htable harrays
    have hgo₄ : w₃.go cfg tid = some (w₃.set tid (.inside pc hp array held)) := by
      rw [LockWorld.go, hs₃]
      rfl
    exact ⟨_, held, hstart.trans (.trans (.single hgo₃) (.single hgo₄)), Function.update_self ..,
      hshown, htable, harrays⟩
  by_cases hlab : la = lb
  · subst hlab
    refine hlast (w₂.set tid (.taking pc hp array [la] [])) [la] (Function.update_self ..) ?_
      rfl rfl rfl
    rw [LockWorld.go, hs₂]
    change w₂.goTaking tid pc hp array [la] [la] = _
    exact if_pos rfl
  · refine hlast ((w₂.lock (array, lb) tid).set tid (.taking pc hp array [lb, la] [])) [lb, la]
      (Function.update_self ..) ?_ rfl rfl rfl
    have hfree : w₂.owner (array, lb) = none := by
      change Function.update w.owner (array, la) (some tid) (array, lb) = none
      rw [Function.update_of_ne fun heq => hlab (Prod.mk.inj heq).2.symm]
      exact hb
    rw [LockWorld.go, hs₂]
    change w₂.goTaking tid pc hp array [la] [lb] = _
    rw [LockWorld.goTaking, if_neg (by simpa using hlab), if_pos hfree, if_neg (by simp)]

/-- A thread that has read the hashpower and waits for the first lock of a small table. -/
theorem waits_at_start (cfg : Config K) (n : Nat) (key : K) :
    ∃ (tr : List (LockWorld K V × Act K V)) (w : LockWorld K V) (pc : Pc K V) (la lb : Nat),
      (lockSystem cfg n).Run (.create n) tr w ∧ Solo cfg 0 w (fun _ => none) ∧
      w.threads 1 = .taking pc (Table.reserveCalc n) 0 [] [la, lb] ∧ w.threads 0 = .free .idle ∧
      w.table = .create n ∧ w.arrays = [(Table.create n : Table K V).numLocks] := by
  let hp := Table.reserveCalc n
  obtain ⟨la, lb, hls⟩ : ∃ la lb, Table.lockTwoOrder (lockInd (Table.i1 cfg hp key))
      (lockInd (Table.i2 cfg hp key)) = [la, lb] := by
    rw [Table.lockTwoOrder]
    split
    · exact ⟨_, _, rfl⟩
    · exact ⟨_, _, rfl⟩
  let w₁ := (LockWorld.create n : LockWorld K V).set 1 (.free (.snapshot (.find key)))
  let w₂ := w₁.set 1 (.free (.locking (.find key) hp))
  let w₃ := w₂.set 1 (.taking (.locking (.find key) hp) hp 0 [] [la, lb])
  have h₀ : Solo cfg 1 (LockWorld.create n : LockWorld K V) fun _ => none :=
    ⟨lockInv_create n, Table.inv_create n, fun _ => trivial, fun _ _ hx => (by cases hx),
      .inl fun _ _ => rfl, trivial⟩
  have h₁ : Solo cfg 1 w₁ fun _ => none := h₀.call rfl trivial
  have hgo₂ : w₁.go cfg 1 = some w₂ := rfl
  have h₂ := h₁.go hgo₂ h₁.table
  have hgo₃ : w₂.go cfg 1 = some w₃ := by
    have hlocks : (Pc.locking (.find key) hp : Pc K V).locks cfg = some (hp, [la, lb]) := by
      rw [← hls]
      rfl
    have hs₂ : w₂.threads 1 = .free (.locking (.find key) hp) := rfl
    rw [LockWorld.go, hs₂]
    change w₂.goFree cfg 1 (.locking (.find key) hp) = _
    unfold LockWorld.goFree
    rw [hlocks]
    rfl
  have h₃ := h₂.go hgo₃ h₂.table
  have hstep₁ : (LockWorld.create n : LockWorld K V).step cfg (.invoke 1 (.find key)) = some w₁ :=
    rfl
  obtain ⟨tr₁, hrun₁⟩ := run_step n hstep₁
  obtain ⟨tr₃, hrun₃, -⟩ : RunsAlone cfg n 1 w₁ w₃ := .trans (.single hgo₂) (.single hgo₃)
  refine ⟨_, w₃, _, la, lb, hrun₁.trans hrun₃, h₃.switch (fun _ => rfl) rfl (.inl fun v _ => ?_),
    rfl, rfl, rfl, rfl⟩
  by_cases hv : v = 1
  · rw [hv]
    rfl
  · have hidle : w₃.threads v = (LockWorld.create n : LockWorld K V).threads v :=
      (Function.update_of_ne hv _ _).trans
        ((Function.update_of_ne hv _ _).trans (Function.update_of_ne hv _ _))
    rw [hidle]
    rfl

/-- In every smaller table that may grow, exclusion is lost in some run. A thread reads the
hashpower and waits for the first lock while the table is doubled once and then once more; in the
middle of that the old hashpower shows again, and so the thread with its lock of the first array
passes `check_hashpower` while the table has no buckets. -/
theorem exclusion_lost [Infinite K] [Nonempty V] (hroomy : cfg.Roomy) (hn : 2 * n ≤ defaultSize) :
    ∃ (w : LockWorld K V) (pc : Pc K V) (hp array : Nat) (held : List Nat),
      (lockSystem cfg n).Reachable w ∧ w.threads 1 = .inside pc hp array held ∧
      (w.threads 0).swapping = true ∧ w.hashpower = hp ∧ w.table.hashpower = hp + 2 ∧
      array + 1 < w.arrays.length ∧ w.step cfg (.run 1) = none := by
  obtain ⟨v⟩ : Nonempty V := inferInstance
  obtain ⟨key⟩ : Nonempty K := inferInstance
  obtain ⟨tr, w, pc, la, lb, hrun, hsolo, hwaits, hidle, htable, harrays⟩ :=
    waits_at_start (V := V) cfg n key
  -- the first doubling
  obtain ⟨w₁, hat₁⟩ := doubling_from_idle v hsolo hidle n
  obtain ⟨tr₁, hrun₁⟩ := hat₁.run
  obtain ⟨m₁, hsolo₁⟩ := hat₁.solo
  obtain ⟨u, first, hs₁⟩ := hat₁.inside
  obtain ⟨w₂, hgo₂, hsolo₂, hs₂, hhp₂, -, hold₂, -, hmore, -⟩ := hsolo₁.doubles hroomy hs₁
  have hgo₃ := step_swapped cfg hs₂
  have hsolo₃ := hsolo₂.go hgo₃ hsolo₂.table
  -- the second one
  obtain ⟨w₄, hat₄⟩ := doubling_from_snapshot hsolo₃
    (congrArg Stage.pc (goSwapped_self w₂ 0 first u)) n
  obtain ⟨tr₄, hrun₄⟩ := hat₄.run
  obtain ⟨m₄, hsolo₄⟩ := hat₄.solo
  obtain ⟨u₄, first₄, hs₄⟩ := hat₄.inside
  obtain ⟨w₅, hgo₅, hsolo₅, hs₅, hhp₅, hshown₅, -, hlen₅, -, howner₅⟩ := hsolo₄.doubles hroomy hs₄
  -- the thread that waits has not moved, and the first array is free
  have hone : (1 : Nat) ≠ 0 := Nat.one_ne_zero
  have hwaits₅ : w₅.threads 1 = .taking pc (Table.reserveCalc n) 0 [] [la, lb] := by
    rw [go_threads hgo₅ hone, hat₄.stays.threads 1 hone, go_threads hgo₃ hone,
      go_threads hgo₂ hone, hat₁.stays.threads 1 hone]
    exact hwaits
  have hhp₁ : w₁.table.hashpower = Table.reserveCalc n := by
    rw [hat₁.hashpower, htable]
    rfl
  have hlen₂ : w₂.arrays.length = 2 := by
    rw [hmore, (hat₁.stays.same hat₁.hashpower).1, harrays]
    · rfl
    · rw [hsolo₁.table.locks, hhp₁]
      exact numLocks_small (K := K) (V := V) hn
  obtain ⟨harrays₄, hold₄⟩ := hat₄.stays.same hat₄.hashpower
  have hlen₄ : w₄.arrays.length = 2 := (congrArg List.length harrays₄).trans hlen₂
  have hfirst₄ : first₄ + 1 = w₄.arrays.length := by
    have hlast := hsolo₄.last
    rw [hs₄] at hlast
    exact hlast
  have hfree : ∀ l, w₅.owner (0, l) = none := by
    intro l
    rw [howner₅ (0, l) (by rw [hlen₄]; exact Nat.two_pos)]
    cases hown : w₄.owner (0, l) with
    | none => rfl
    | some other =>
      obtain rfl := hsolo₄.owner _ _ hown
      have hholds : (w₄.threads 0).Holds w₄.arrays (0, l) := (hsolo₄.locks.owned _ _).mp hown
      rw [hs₄] at hholds
      have hle : first₄ ≤ 0 := hholds.2
      omega
  -- the hashpower that shows is the one it has read
  have hshown : w₅.hashpower = Table.reserveCalc n := by
    rw [hshown₅, hold₄]
    exact hold₂.trans hhp₁
  have hhp : w₅.table.hashpower = Table.reserveCalc n + 2 := by
    rw [hhp₅, hat₄.hashpower]
    change w₂.table.hashpower + 1 = _
    rw [hhp₂, hhp₁]
  obtain ⟨w₆, held, halone₆, hs₆, hshown₆, htable₆, harrays₆⟩ :=
    takes_two cfg hwaits₅ hshown (hfree la) (hfree lb) n
  have hzero : w₆.threads 0 = .swapped u₄ first₄ := (halone₆.threads Nat.zero_ne_one).trans hs₅
  obtain ⟨tr₃, hrun₃, -⟩ : RunsAlone cfg n 0 w₁ (w₂.goSwapped 0 u first) :=
    .trans (.single hgo₂) (.single hgo₃)
  obtain ⟨tr₅, hrun₅, -⟩ : RunsAlone cfg n 0 w₄ w₅ := .single hgo₅
  obtain ⟨tr₆, hrun₆, -⟩ := halone₆
  refine ⟨w₆, pc, _, 0, held, ⟨_, _, rfl, ((((hrun.trans hrun₁).trans hrun₃).trans hrun₄).trans
    hrun₅).trans hrun₆⟩, hs₆, ?_, hshown₆.trans hshown, ?_, ?_, ?_⟩
  · rw [hzero]
    rfl
  · rw [htable₆]
    exact hhp
  · rw [harrays₆]
    omega
  · rw [LockWorld.step, LockWorld.go, hs₆]
    refine if_neg fun hcond => ?_
    rw [hshown₆, htable₆, hshown, hhp] at hcond
    omega

theorem exclusion_lost_eight :
    ∃ (w : LockWorld Nat Nat) (pc : Pc Nat Nat) (hp array : Nat) (held : List Nat),
      (lockSystem roomyConfig 8).Reachable w ∧ w.threads 1 = .inside pc hp array held ∧
      (w.threads 0).swapping = true ∧ w.hashpower = hp ∧ w.table.hashpower = hp + 2 ∧
      array + 1 < w.arrays.length ∧ w.step roomyConfig (.run 1) = none :=
  exclusion_lost roomyConfig_roomy (by decide)

end LogDirect.Cuckoo
