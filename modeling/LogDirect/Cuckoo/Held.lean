import LogDirect.Cuckoo.Linear
import LogDirect.Cuckoo.Locks
import LogDirect.Lib.Owners

/-!
# libcuckoo: who holds which lock

What a thread can rely on while it takes its locks and while it holds them (`Stage.Ok`),
and that the owners of the locks are the threads that hold them (`LockInv`). A thread takes
its locks in the order of their places, and before it has looked at the hashpower it has
no more than one.
-/

namespace LogDirect.Cuckoo

open Lib Lib.Atomic Lib.Owners

variable {K V : Type}

/-! ## The order of the locks -/

theorem sorted_lockTwoOrder (a b : Nat) : (Table.lockTwoOrder a b).Pairwise (· ≤ ·) := by
  rw [Table.lockTwoOrder]
  split
  · rw [List.pairwise_pair]
    omega
  · rw [List.pairwise_pair]
    omega

theorem sorted_lockThreeOrder (a b c : Nat) : (Table.lockThreeOrder a b c).Pairwise (· ≤ ·) := by
  simp only [Table.lockThreeOrder, Table.swapIf, decide_eq_true_eq]
  split_ifs <;> simp <;> omega

/-- Locks of buckets that there are, in order. -/
structure LocksOk (hp : Nat) (ls : List Nat) : Prop where
  nonempty : ls ≠ []
  sorted : ls.Pairwise (· ≤ ·)
  inRange : ∀ l ∈ ls, ∃ i, i < hashsize hp ∧ l = lockInd i

variable {i l array : Nat} {arrays held rest : List Nat}

theorem LocksOk.one {hp : Nat} (hi : i < hashsize hp) : LocksOk hp [lockInd i] where
  nonempty := List.cons_ne_nil _ _
  sorted := List.pairwise_singleton _ _
  inRange _ hl := ⟨i, hi, List.mem_singleton.mp hl⟩

theorem LocksOk.two {hp j : Nat} (hi : i < hashsize hp) (hj : j < hashsize hp) :
    LocksOk hp (Table.lockTwoOrder (lockInd i) (lockInd j)) where
  nonempty := List.ne_nil_of_mem (mem_lockTwoOrder.mpr (.inl rfl))
  sorted := sorted_lockTwoOrder _ _
  inRange l hl := by
    rcases mem_lockTwoOrder.mp hl with rfl | rfl
    · exact ⟨i, hi, rfl⟩
    · exact ⟨j, hj, rfl⟩

theorem LocksOk.three {hp j k : Nat} (hi : i < hashsize hp) (hj : j < hashsize hp)
    (hk : k < hashsize hp) :
    LocksOk hp (Table.lockThreeOrder (lockInd i) (lockInd j) (lockInd k)) where
  nonempty := List.ne_nil_of_mem (mem_lockThreeOrder.mpr (.inl rfl))
  sorted := sorted_lockThreeOrder _ _ _
  inRange l hl := by
    rcases mem_lockThreeOrder.mp hl with rfl | rfl | rfl
    · exact ⟨i, hi, rfl⟩
    · exact ⟨j, hj, rfl⟩
    · exact ⟨k, hk, rfl⟩

variable {cfg : Config K} {pc : Pc K V} {hp hashpower : Nat} {ls : List Nat}

/-- The locks that a thread needs next. -/
theorem locks_spec (hok : pc.Ok cfg hashpower) (h : pc.locks cfg = some (hp, ls)) :
    hp ≤ hashpower ∧ LocksOk hp ls := by
  cases pc with
  | idle => cases h
  | snapshot c => cases h
  | expanding u hp' => cases h
  | answered r => cases h
  | locking c hp' =>
    cases h
    exact ⟨hok, .two (Table.home_i1 cfg _ c.key).lt (Table.home_i2 cfg _ c.key).lt⟩
  | searching u hp' q =>
    obtain ⟨x, hx, heq⟩ := Option.map_eq_some_iff.mp h
    cases heq
    exact ⟨hok.1, .one (hok.2.items x (List.mem_of_mem_head? hx)).bucket⟩
  | walking u hp' path bucket slots =>
    cases h
    obtain ⟨hle, -, -, hbucket, -⟩ := hok
    exact ⟨hle, .one hbucket⟩
  | moving u hp' path depth =>
    obtain ⟨hle, hpath, -⟩ := hok
    have h1 := (Table.home_i1 cfg hp' u.key).lt
    have h2 := (Table.home_i2 cfg hp' u.key).lt
    cases depth with
    | zero =>
      cases h
      exact ⟨hle, .two h1 h2⟩
    | succ depth =>
      obtain ⟨source, hsource, h⟩ := Option.bind_eq_some_iff.mp h
      obtain ⟨target, htarget, heq⟩ := Option.map_eq_some_iff.mp h
      cases heq
      have hs := (hpath.inRange source (List.mem_of_getElem? hsource)).1
      have ht := (hpath.inRange target (List.mem_of_getElem? htarget)).1
      refine ⟨hle, ?_⟩
      split
      · exact .three h1 h2 ht
      · exact .two hs ht

section

variable [DecidableEq K] {m : K → Option V} {t : Table K V}

omit [DecidableEq K] in
theorem LocksOk.lt (h : LocksOk hp ls) (hinv : t.Inv cfg m) (hle : hp ≤ t.hashpower) :
    ∀ l ∈ ls, l < t.numLocks := by
  intro l hl
  obtain ⟨i, hi, rfl⟩ := h.inRange l hl
  exact hinv.lockInd_lt_of_le hle hi

/-- If the hashpower is not the expected one, nothing is done. -/
theorem advance_retry (hinv : t.Inv cfg m) (hok : pc.Ok cfg t.hashpower)
    (h : pc.locks cfg = some (hp, ls)) (hhp : t.hashpower ≠ hp) :
    t.advance cfg pc = some (t, pc.retry) := by
  have hlocks := (locks_spec hok h).2.lt hinv (locks_spec hok h).1
  have hchanged : t.lockAt cfg hp ls = some none := Table.lockAt_changed hlocks hhp
  cases pc with
  | idle => cases h
  | snapshot c => cases h
  | expanding u hp' => cases h
  | answered r => cases h
  | locking c hp' =>
    cases h
    rw [Table.advance, Table.lockTwo, hchanged]
    rfl
  | searching u hp' q =>
    obtain ⟨slots, last⟩ := q
    cases slots with
    | nil => cases h
    | cons x rest =>
      cases h
      rw [Table.advance, Table.search]
      dsimp only
      rw [Table.lockOne, hchanged]
      rfl
  | walking u hp' path bucket slots =>
    cases h
    obtain ⟨-, -, -, -, hne, -, hlen⟩ := hok
    cases slots with
    | nil => exact absurd rfl hne
    | cons slot rest =>
      rw [List.length_cons] at hlen
      rw [Table.advance, Table.walk, if_pos (by omega), Table.lockOne, hchanged]
      rfl
  | moving u hp' path depth =>
    obtain ⟨-, hpath, hdepth⟩ := hok
    cases depth with
    | zero =>
      cases h
      have hr : path[0]? = some path[0] := List.getElem?_eq_getElem hdepth
      have hbucket : path[0].bucket = Table.i1 cfg hp u.key ∨
          path[0].bucket = Table.i2 cfg hp u.key :=
        hpath.first _ hr
      rw [Table.advance, Table.move, hr, Option.bind_some, Table.moveNone, if_pos hbucket,
        Table.lockTwo, hchanged]
      rfl
    | succ depth =>
      obtain ⟨source, hsource, h⟩ := Option.bind_eq_some_iff.mp h
      obtain ⟨target, htarget, heq⟩ := Option.map_eq_some_iff.mp h
      cases heq
      rw [Table.advance, Table.move, hsource, Option.bind_some, htarget, Option.bind_some,
        Table.moveOne]
      by_cases hzero : depth = 0
      · rw [if_pos hzero] at hchanged ⊢
        rw [Table.lockThree, hchanged]
        rfl
      · rw [if_neg hzero] at hchanged ⊢
        rw [Table.lockTwo, hchanged]
        rfl

end

/-! ## Who holds what -/

/-- There is such a lock. -/
def InRange (arrays : List Nat) (x : LockId) : Prop := ∃ n, arrays[x.1]? = some n ∧ x.2 < n

/-- The locks that a thread holds. -/
def Stage.Holds (arrays : List Nat) (x : LockId) : Stage K V → Prop
  | .free _ => False
  | .taking _ _ array held _ => x.1 = array ∧ x.2 ∈ held
  | .checking _ _ array first _ => x = (array, first)
  | .inside _ _ array held => x.1 = array ∧ x.2 ∈ held
  | .takingAll _ _ first array i =>
      InRange arrays x ∧ first ≤ x.1 ∧ (x.1 < array ∨ (x.1 = array ∧ x.2 < i))
  | .insideAll _ _ first => InRange arrays x ∧ first ≤ x.1
  | .swapped _ first => InRange arrays x ∧ first ≤ x.1
  | .releasing _ array held => x.1 = array ∧ x.2 ∈ held
  | .releasingAll _ array i => InRange arrays x ∧ (array < x.1 ∨ (x.1 = array ∧ i ≤ x.2))

/-- The locks that a thread has taken and those it has still to take. -/
structure Needs (cfg : Config K) (hashpower : Nat) (arrays : List Nat) (pc : Pc K V)
    (hp array : Nat) (held rest : List Nat) : Prop where
  locks : ∃ ls, pc.locks cfg = some (hp, ls) ∧ ∀ l ∈ ls, l ∈ held ∨ l ∈ rest
  inRange : ∀ l, l ∈ held ∨ l ∈ rest → InRange arrays (array, l)
  nonempty : held ≠ [] ∨ rest ≠ []
  sorted : (held.reverse ++ rest).Pairwise (· ≤ ·)
  distinct : held.Nodup
  -- the array is the current one, unless the table has been doubled since
  current : hashpower = hp → array + 1 = arrays.length

/-- What a thread can rely on while it takes and holds its locks. -/
def Stage.Ok (cfg : Config K) (hashpower : Nat) (arrays : List Nat) : Stage K V → Prop
  | .free _ => True
  | .taking pc hp array held rest =>
      Needs cfg hashpower arrays pc hp array held rest ∧ (held ≠ [] → hashpower = hp)
  | .checking pc hp array first rest => Needs cfg hashpower arrays pc hp array [first] rest
  | .inside pc hp array held =>
      Needs cfg hashpower arrays pc hp array held [] ∧ hashpower = hp
  | .takingAll _ _ first array _ => first ≤ array ∧ array < arrays.length
  | .insideAll _ _ first => first < arrays.length
  | .swapped _ first => first < arrays.length
  | .releasing _ array held => held.Nodup ∧ ∀ l ∈ held, InRange arrays (array, l)
  | .releasingAll _ array _ => array < arrays.length

/-- The locks and the threads agree. -/
structure LockInv (cfg : Config K) (w : LockWorld K V) : Prop where
  owned : Owned w.owner fun tid x => (w.threads tid).Holds w.arrays x
  ok : ∀ tid, (w.threads tid).Ok cfg w.table.hashpower w.arrays
  last : ∃ pre, w.arrays = pre ++ [w.table.numLocks]
  shown : (∀ tid, (w.threads tid).swapping = false) → w.hashpower = w.table.hashpower
  below : w.hashpower ≤ w.table.hashpower ∧ w.oldHashpower ≤ w.table.hashpower

variable {w : LockWorld K V} {tid : Nat} {s : Stage K V}

theorem LockInv.length_pos (h : LockInv cfg w) : 0 < w.arrays.length := by
  obtain ⟨pre, hpre⟩ := h.last
  rw [hpre, List.length_append, List.length_singleton]
  exact Nat.succ_pos _

/-- The locks of the current array. -/
theorem LockInv.inRange_last (h : LockInv cfg w) (hl : l < w.table.numLocks) :
    InRange w.arrays (w.arrays.length - 1, l) := by
  obtain ⟨pre, hpre⟩ := h.last
  refine ⟨w.table.numLocks, ?_, hl⟩
  rw [hpre, List.length_append, List.length_singleton, Nat.add_sub_cancel,
    List.getElem?_append_right (Nat.le_refl _), Nat.sub_self]
  rfl

theorem lockInv_create (n : Nat) : LockInv cfg (LockWorld.create n : LockWorld K V) where
  owned x t := ⟨(fun h => by cases h), False.elim⟩
  ok _ := trivial
  last := ⟨[], rfl⟩
  shown _ := rfl
  below := ⟨Nat.le_refl _, Nat.zero_le _⟩

/-! ## One thread changes -/

theorem ok_update (h : LockInv cfg w) (hok : s.Ok cfg w.table.hashpower w.arrays) (u : Nat) :
    (Function.update w.threads tid s u).Ok cfg w.table.hashpower w.arrays := by
  by_cases hu : u = tid
  · rw [hu, Function.update_self]
    exact hok
  · rw [Function.update_of_ne hu]
    exact h.ok u

theorem shown_update (h : LockInv cfg w) (hno : (w.threads tid).swapping = false)
    (hall : ∀ u, (Function.update w.threads tid s u).swapping = false) :
    w.hashpower = w.table.hashpower := by
  refine h.shown fun u => ?_
  by_cases hu : u = tid
  · rw [hu]
    exact hno
  · rw [← Function.update_of_ne hu s w.threads]
    exact hall u

/-- It holds the same locks as before. -/
theorem LockInv.set (h : LockInv cfg w) (hno : (w.threads tid).swapping = false)
    (hok : s.Ok cfg w.table.hashpower w.arrays)
    (hholds : ∀ x, s.Holds w.arrays x ↔ (w.threads tid).Holds w.arrays x) :
    LockInv cfg (w.set tid s) where
  owned := by
    refine h.owned.same fun u x => ?_
    change (Function.update w.threads tid s u).Holds w.arrays x ↔ _
    by_cases hu : u = tid
    · rw [hu, Function.update_self]
      exact hholds x
    · rw [Function.update_of_ne hu]
  ok := ok_update h hok
  last := h.last
  shown := shown_update h hno
  below := h.below

/-- It takes a lock. -/
theorem LockInv.lock (h : LockInv cfg w) (hno : (w.threads tid).swapping = false) {y : LockId}
    (hfree : w.owner y = none)
    (hok : s.Ok cfg w.table.hashpower w.arrays)
    (hholds : ∀ x, s.Holds w.arrays x ↔ (w.threads tid).Holds w.arrays x ∨ x = y) :
    LockInv cfg ((w.lock y tid).set tid s) where
  owned := by
    refine h.owned.take (t := tid) (· = y) ?_ ?_ ?_ ?_ ?_
    · rintro x rfl
      exact hfree
    · rintro x rfl
      exact Function.update_self ..
    · exact fun x hx => Function.update_of_ne hx _ _
    · intro u x hu
      change (Function.update w.threads tid s u).Holds w.arrays x ↔ _
      rw [Function.update_of_ne hu]
    · intro x
      change (Function.update w.threads tid s tid).Holds w.arrays x ↔ _
      rw [Function.update_self]
      exact hholds x
  ok u := by
    change (Function.update w.threads tid s u).Ok cfg w.table.hashpower w.arrays
    exact ok_update h hok u
  last := h.last
  shown := shown_update (w := w) h hno
  below := h.below

/-- It gives up a lock. -/
theorem LockInv.unlock (h : LockInv cfg w) (hno : (w.threads tid).swapping = false) {y : LockId}
    (hy : (w.threads tid).Holds w.arrays y)
    (hok : s.Ok cfg w.table.hashpower w.arrays)
    (hholds : ∀ x, s.Holds w.arrays x ↔ (w.threads tid).Holds w.arrays x ∧ x ≠ y) :
    LockInv cfg ((w.unlock y).set tid s) where
  owned := by
    refine h.owned.release (t := tid) hy ?_ ?_
    · intro u x hu
      change (Function.update w.threads tid s u).Holds w.arrays x ↔ _
      rw [Function.update_of_ne hu]
    · intro x
      change (Function.update w.threads tid s tid).Holds w.arrays x ↔ _
      rw [Function.update_self]
      exact hholds x
  ok u := by
    change (Function.update w.threads tid s u).Ok cfg w.table.hashpower w.arrays
    exact ok_update h hok u
  last := h.last
  shown := shown_update (w := w) h hno
  below := h.below

/-- The table changes, but not its hashpower. -/
theorem LockInv.table (h : LockInv cfg w) {t : Table K V} (hhp : t.hashpower = w.table.hashpower)
    (hnum : t.numLocks = w.table.numLocks) : LockInv cfg { w with table := t } where
  owned := h.owned
  ok u := by
    change (w.threads u).Ok cfg t.hashpower w.arrays
    rw [hhp]
    exact h.ok u
  last := by
    change ∃ pre, w.arrays = pre ++ [t.numLocks]
    rw [hnum]
    exact h.last
  shown hall := (h.shown hall).trans hhp.symm
  below := by
    change w.hashpower ≤ t.hashpower ∧ w.oldHashpower ≤ t.hashpower
    rw [hhp]
    exact h.below

/-! ## Taking locks -/

/-- The next lock comes after all that are held, unless it is the last one of them. -/
theorem Needs.above {hashpower : Nat} (h : Needs cfg hashpower arrays pc hp array held (l :: rest))
    (hhead : held.head? ≠ some l) : ∀ k ∈ held, k < l := by
  intro k hk
  cases held with
  | nil => cases hk
  | cons k₀ ks =>
    have hsorted := h.sorted
    rw [List.reverse_cons, List.append_assoc, List.singleton_append] at hsorted
    obtain ⟨-, htail, hcross⟩ := List.pairwise_append.mp hsorted
    have hlt : k₀ < l := by
      refine Nat.lt_of_le_of_ne ((List.pairwise_cons.mp htail).1 l List.mem_cons_self) ?_
      rintro rfl
      exact hhead rfl
    rcases List.mem_cons.mp hk with rfl | hk
    · exact hlt
    · exact Nat.lt_of_le_of_lt (hcross k (List.mem_reverse.mpr hk) k₀ List.mem_cons_self) hlt

/-- A lock that equals the one before is not taken twice. -/
theorem Needs.skip {hashpower : Nat} (h : Needs cfg hashpower arrays pc hp array held (l :: rest))
    (hhead : held.head? = some l) : Needs cfg hashpower arrays pc hp array held rest where
  locks := by
    obtain ⟨ls, hls, hmem⟩ := h.locks
    refine ⟨ls, hls, fun k hk => ?_⟩
    rcases hmem k hk with hk | hk
    · exact .inl hk
    · rcases List.mem_cons.mp hk with rfl | hk
      · exact .inl (List.mem_of_mem_head? hhead)
      · exact .inr hk
  inRange k hk := h.inRange k (hk.imp_right (List.mem_cons_of_mem l))
  nonempty := by
    left
    rintro rfl
    cases hhead
  sorted := h.sorted.sublist ((List.sublist_cons_self l rest).append_left held.reverse)
  distinct := h.distinct
  current := h.current

/-- The next lock is taken. -/
theorem Needs.take {hashpower : Nat} (h : Needs cfg hashpower arrays pc hp array held (l :: rest))
    (hhead : held.head? ≠ some l) : Needs cfg hashpower arrays pc hp array (l :: held) rest := by
  have hmem : ∀ k, k ∈ held ∨ k ∈ l :: rest ↔ k ∈ l :: held ∨ k ∈ rest := by
    intro k
    rw [List.mem_cons, List.mem_cons, or_left_comm, or_assoc]
  refine ⟨?_, fun k hk => h.inRange k ((hmem k).mpr hk), .inl (List.cons_ne_nil l held), ?_, ?_,
    h.current⟩
  · obtain ⟨ls, hls, hall⟩ := h.locks
    exact ⟨ls, hls, fun k hk => (hmem k).mp (hall k hk)⟩
  · rw [List.reverse_cons, List.append_assoc]
    exact h.sorted
  · exact List.nodup_cons.mpr ⟨fun hl => Nat.lt_irrefl l (h.above hhead l hl), h.distinct⟩

/-- The locks of a thread are there. -/
theorem Stage.Ok.inRange {hashpower : Nat} (h : s.Ok cfg hashpower arrays) {x : LockId}
    (hx : s.Holds arrays x) : InRange arrays x := by
  obtain ⟨a, i⟩ := x
  cases s with
  | free pc => exact hx.elim
  | taking pc hp array held rest =>
    obtain ⟨rfl, hi⟩ := hx
    exact h.1.inRange i (.inl hi)
  | checking pc hp array first rest =>
    cases hx
    exact Needs.inRange h i (.inl (List.mem_singleton_self _))
  | inside pc hp array held =>
    obtain ⟨rfl, hi⟩ := hx
    exact h.1.inRange i (.inl hi)
  | takingAll u hp first array j => exact hx.1
  | insideAll u hp first => exact hx.1
  | swapped u first => exact hx.1
  | releasing pc array held =>
    obtain ⟨rfl, hi⟩ := hx
    exact h.2 i hi
  | releasingAll pc array j => exact hx.1

end LogDirect.Cuckoo
