import LogDirect.Cuckoo.Linear
import LogDirect.Cuckoo.Paths

/-!
# libcuckoo: a thread that is left alone

Whatever the other threads have done before, the call of a thread that from now on runs alone
is answered (`ends_call`). What it knows may be out of date, but then it soon
finds out and begins again; and a search that begins while no one else runs finds a way
that can be gone, or none, and then the table is doubled (`ends_locking`). It cannot be doubled
forever, since the load factor falls below its minimum, or the largest hashpower is reached, and
then the insertion throws. Here what is done under the locks is one step; `Solo` has them one
by one.
-/

namespace LogDirect.Cuckoo

open Lib Lib.Cells Lib.Atomic

variable {K V : Type} [DecidableEq K]

/-- A thread that is left alone comes to `P`. -/
inductive Ends (cfg : Config K) (P : Table K V → Pc K V → Prop) : Table K V → Pc K V → Prop
  | here {t pc} : P t pc → Ends cfg P t pc
  | step {t pc t' pc'} : t.advance cfg pc = some (t', pc') → Ends cfg P t' pc' → Ends cfg P t pc

/-- The call has its answer. -/
def Answered (_ : Table K V) (pc : Pc K V) : Prop := ∃ r, pc = .answered r

variable {cfg : Config K} {m : K → Option V} {t t' : Table K V} {u : Uprase K V} {c : Call K V}
  {pc pc' : Pc K V} {P : Table K V → Pc K V → Prop}

theorem ends_answered (t : Table K V) (r : Ret V) : Ends cfg Answered t (.answered r) :=
  .here ⟨r, rfl⟩

/-- A step after which the call goes on. -/
theorem Good.on {grown : Nat → Prop} (h : Good cfg m grown c (some (t', pc')))
    (hphase : pc'.phase = .called c) : t'.Inv cfg m ∧ pc'.Ok cfg t'.hashpower := by
  obtain ⟨t'', pc'', m', heq, hinv, -, hok, hres⟩ := h
  cases heq
  rcases hres with ⟨-, rfl⟩ | ⟨r, rfl, -⟩
  · exact ⟨hinv, hok⟩
  · cases hphase

/-- What is no doubling leaves the hashpower as it is. -/
theorem advance_hashpower (h : t.Inv cfg m) (hok : pc.Ok cfg t.hashpower)
    (hphase : pc.phase = .called c) (hpc : ∀ u hp, pc ≠ .expanding u hp)
    (hadv : t.advance cfg pc = some (t', pc')) : t'.hashpower = t.hashpower := by
  obtain ⟨t'', pc'', m', heq, -, hhp, -⟩ := good_stays h hok hphase hpc
  cases hadv.symm.trans heq
  exact hhp.symm

/-! ## Answers -/

variable {i s hp depth : Nat} {r source target : CuckooRecord} {path : List CuckooRecord}

omit [DecidableEq K] in
theorem upraseAt_answers (h : t.upraseAt u i s = some (t', pc')) :
    ∃ r, pc' = .answered r ∧ r ≠ .threw := by
  obtain ⟨t₁, -, heq⟩ := Option.map_eq_some_iff.mp h
  cases heq
  exact ⟨_, rfl, fun heq => by cases heq⟩

omit [DecidableEq K] in
theorem insertAt_answers (h : t.insertAt cfg u i s = some (t', pc')) :
    ∃ r, pc' = .answered r ∧ r ≠ .threw := by
  obtain ⟨t₁, -, hmap⟩ := Option.bind_eq_some_iff.mp h
  obtain ⟨t₂, -, heq⟩ := Option.map_eq_some_iff.mp hmap
  cases heq
  exact ⟨_, rfl, fun heq => by cases heq⟩

theorem insertMoved_answers (h : t.insertMoved cfg u hp r = some (t', pc')) :
    ∃ r, pc' = .answered r ∧ r ≠ .threw := by
  rw [Table.insertMoved] at h
  split at h
  · obtain ⟨pos, -, hpos⟩ := Option.bind_eq_some_iff.mp h
    cases pos with
    | none => exact insertAt_answers hpos
    | some p => exact upraseAt_answers hpos
  · cases h

/-- A call is answered at once, unless an insertion finds its two buckets full. -/
theorem serve_answers (h : t.serve cfg hp c = some (t', pc')) :
    (∃ r, pc' = .answered r ∧ r ≠ .threw) ∨
      ∃ u, c = .uprase u ∧ t' = t ∧ pc' = Table.again cfg u hp := by
  cases c with
  | find key =>
    obtain ⟨pos, -, heq⟩ := Option.map_eq_some_iff.mp h
    cases heq
    exact .inl ⟨_, rfl, fun heq => by cases heq⟩
  | update key fn =>
    obtain ⟨pos, -, hpos⟩ := Option.bind_eq_some_iff.mp h
    cases pos with
    | none =>
      cases hpos
      exact .inl ⟨_, rfl, fun heq => by cases heq⟩
    | some p =>
      obtain ⟨t₁, -, heq⟩ := Option.map_eq_some_iff.mp hpos
      cases heq
      exact .inl ⟨_, rfl, fun heq => by cases heq⟩
  | erase key fn =>
    obtain ⟨pos, -, hpos⟩ := Option.bind_eq_some_iff.mp h
    cases pos with
    | none =>
      cases hpos
      exact .inl ⟨_, rfl, fun heq => by cases heq⟩
    | some p =>
      obtain ⟨t₁, -, heq⟩ := Option.map_eq_some_iff.mp hpos
      cases heq
      exact .inl ⟨_, rfl, fun heq => by cases heq⟩
  | uprase u =>
    obtain ⟨place, -, hplace⟩ := Option.bind_eq_some_iff.mp h
    cases place with
    | duplicated i s => exact .inl (upraseAt_answers hplace)
    | ok i s => exact .inl (insertAt_answers hplace)
    | full =>
      cases hplace
      exact .inr ⟨u, rfl, rfl, rfl⟩

/-! ## Along the path -/

/-- A slot of one of the two buckets is free: the insertion ends. -/
theorem ends_insertMoved (h : t.Inv cfg m) (hlocked : t.Locked cfg u.key)
    (hhome : Home t.hashpower (cfg.hashedKey u.key) r.bucket) (hslot : r.slot < slotPerBucket)
    (hfree : t.buckets.cells (r.bucket, r.slot) = none) :
    ∃ t' r', t.insertMoved cfg u t.hashpower r = some (t', .answered r') ∧ r' ≠ .threw := by
  obtain ⟨t', pc', -, heq, -⟩ := good_insertMoved h hlocked hhome hslot hfree
  obtain ⟨r', rfl, hr'⟩ := insertMoved_answers heq
  exact ⟨t', r', heq, hr'⟩

/-- The locks of the two buckets of a key can be taken. -/
theorem lockTwo_key (h : t.Inv cfg m) (key : K) :
    ∃ t', t.lockTwo cfg t.hashpower (Table.i1 cfg t.hashpower key) (Table.i2 cfg t.hashpower key) =
        some (some t') ∧ t'.Inv cfg m ∧ t.Kept t' ∧ t'.Locked cfg key := by
  have hlocks : ∀ l ∈ Table.lockTwoOrder (lockInd (Table.i1 cfg t.hashpower key))
      (lockInd (Table.i2 cfg t.hashpower key)), l < t.numLocks := by
    intro l hl
    rcases mem_lockTwoOrder.mp hl with rfl | rfl
    · exact h.lockInd_lt (Table.home_i1 cfg _ key).lt
    · exact h.lockInd_lt (Table.home_i2 cfg _ key).lt
  obtain ⟨t', hlock, hinv, hkept, hmig⟩ := h.lockAt hlocks
  refine ⟨t', hlock, hinv, hkept, ?_, ?_⟩
  · rw [hkept.hashpower]
    exact hmig _ (mem_lockTwoOrder.mpr (.inl rfl))
  · rw [hkept.hashpower]
    exact hmig _ (mem_lockTwoOrder.mpr (.inr rfl))

/-- A path of which nothing has to be moved any more. -/
theorem ends_moveNone (h : t.Inv cfg m) (hhome : Home t.hashpower (cfg.hashedKey u.key) r.bucket)
    (hslot : r.slot < slotPerBucket) (hmig : t.isMigrated (lockInd r.bucket) = true)
    (hfree : t.buckets.cells (r.bucket, r.slot) = none) :
    ∃ t' r', t.moveNone cfg u t.hashpower r = some (t', .answered r') ∧ r' ≠ .threw := by
  have hbucket : r.bucket = Table.i1 cfg t.hashpower u.key ∨
      r.bucket = Table.i2 cfg t.hashpower u.key := hhome
  obtain ⟨t₁, hlock, hinv, hkept, hlocked⟩ := lockTwo_key h u.key
  have hfree₁ := (hkept.cells r.bucket r.slot hmig).trans hfree
  rw [← hkept.hashpower] at hhome
  obtain ⟨t', r', hres, hr'⟩ := ends_insertMoved hinv hlocked hhome hslot hfree₁
  refine ⟨t', r', ?_, hr'⟩
  rw [Table.moveNone, if_pos hbucket, hlock, Table.withLocks, Table.get_eq hhome.lt,
    Option.bind_some]
  dsimp only
  rw [if_pos (Option.isNone_iff_eq_none.mpr hfree₁), ← hkept.hashpower]
  exact hres

/-- One element of the path is moved. -/
theorem ready_shift (h : t.Inv cfg m) (hpath : PathOk cfg u.key t.hashpower path)
    (hready : Ready cfg t path (depth + 1)) (hsource : path[depth]? = some source)
    (htarget : path[depth + 1]? = some target) :
    ∃ t', t.shift cfg source target = some (some t') ∧ t'.Inv cfg m ∧ t'.hashpower = t.hashpower ∧
      t'.isMigrated = t.isMigrated ∧ Ready cfg t' path depth := by
  have hrec := hready.before depth source (Nat.lt_succ_self depth) hsource
  obtain ⟨e, he, hhv⟩ := hrec.element
  obtain ⟨t', hshift, hinv, hhp, hmig, hfree, hframe⟩ := shift_hits h
    (hpath.inRange target (List.mem_of_getElem? htarget))
    (hpath.link depth source target hsource htarget) (hready.migrated target htarget)
    (hready.empty target htarget) he (congrArg HashValue.hash hhv)
  refine ⟨t', hshift, hinv, hhp, hmig, ?_, ?_, ?_, ?_⟩
  · -- the elements before are in other buckets
    intro j r hj hr
    have hold := hready.before j r (Nat.lt_succ_of_lt hj) hr
    have hne := hready.apart j depth r source hj (Nat.le_succ depth) hr hsource
    have hne' := hready.apart j (depth + 1) r target (Nat.lt_succ_of_lt hj)
      (Nat.le_refl _) hr htarget
    obtain ⟨e', he', hhv'⟩ := hold.element
    refine ⟨by rw [hmig]; exact hold.migrated, e', ?_, hhv'⟩
    rw [hframe]
    · exact he'
    · exact fun heq => hne (Prod.mk.inj heq).1
    · exact fun heq => hne' (Prod.mk.inj heq).1
  · intro r hr
    cases hsource.symm.trans hr
    rw [hmig]
    exact hrec.migrated
  · intro r hr
    cases hsource.symm.trans hr
    exact hfree
  · exact fun i j r r' hij hj => hready.apart i j r r' hij (Nat.le_succ_of_le hj)

/-- The last element of the path is moved, and the insertion ends. -/
theorem ends_moveLast (h : t.Inv cfg m) (hpath : PathOk cfg u.key t.hashpower path)
    (hready : Ready cfg t path 1) (hsource : path[0]? = some source)
    (htarget : path[1]? = some target) :
    ∃ t' r, t.moveOne cfg u t.hashpower path 0 source target = some (t', .answered r) ∧
      r ≠ .threw := by
  have hlocks : ∀ l ∈ Table.lockThreeOrder (lockInd (Table.i1 cfg t.hashpower u.key))
      (lockInd (Table.i2 cfg t.hashpower u.key)) (lockInd target.bucket), l < t.numLocks := by
    intro l hl
    rcases mem_lockThreeOrder.mp hl with rfl | rfl | rfl
    · exact h.lockInd_lt (Table.home_i1 cfg _ u.key).lt
    · exact h.lockInd_lt (Table.home_i2 cfg _ u.key).lt
    · exact h.lockInd_lt (hpath.inRange target (List.mem_of_getElem? htarget)).1
  obtain ⟨t₁, hlock, hinv₁, hkept, hmig⟩ := h.lockAt hlocks
  have hpath₁ := hpath
  rw [← hkept.hashpower] at hpath₁
  obtain ⟨t₂, hshift, hinv₂, hhp, hmig₂, hready₂⟩ :=
    ready_shift hinv₁ hpath₁ (hready.kept hkept) hsource htarget
  have hlocked : t₂.Locked cfg u.key := by
    refine ⟨?_, ?_⟩
    · rw [hhp, hmig₂, hkept.hashpower]
      exact hmig _ (mem_lockThreeOrder.mpr (.inl rfl))
    · rw [hhp, hmig₂, hkept.hashpower]
      exact hmig _ (mem_lockThreeOrder.mpr (.inr (.inl rfl)))
  have hhp₂ : t₂.hashpower = t.hashpower := hhp.trans hkept.hashpower
  have hhome := hpath.first source hsource
  rw [← hhp₂] at hhome
  obtain ⟨t', r, hres, hr⟩ := ends_insertMoved hinv₂ hlocked hhome
    (hpath.inRange source (List.mem_of_getElem? hsource)).2 (hready₂.empty source hsource)
  refine ⟨t', r, ?_, hr⟩
  rw [Table.moveOne, if_pos rfl, Table.lockThree, hlock, Table.withLocks, hshift, Option.bind_some]
  dsimp only
  rw [if_pos rfl, ← hhp₂]
  exact hres

/-- Every answer but an exception counts, as long as the table has not been doubled. -/
def Counts (hp : Nat) (P : Table K V → Pc K V → Prop) : Prop :=
  ∀ t r, t.hashpower = hp → r ≠ .threw → P t (.answered r)

omit [DecidableEq K] in
theorem counts_answered (hp : Nat) : Counts hp (Answered : Table K V → Pc K V → Prop) :=
  fun _ r _ _ => ⟨r, rfl⟩

/-- The last move is followed by the answer. -/
theorem ends_move (h : t.Inv cfg m) (hP : Counts t.hashpower P)
    (hpath : PathOk cfg u.key t.hashpower path) (hdepth : depth < path.length) {r : Ret V}
    (hadv : t.advance cfg (.moving u t.hashpower path depth) = some (t', .answered r))
    (hr : r ≠ .threw) : Ends cfg P t (.moving u t.hashpower path depth) := by
  have hok : (Pc.moving u t.hashpower path depth).Ok cfg t.hashpower :=
    ⟨Nat.le_refl _, hpath, hdepth⟩
  have hhp := advance_hashpower h hok rfl (fun _ _ heq => by cases heq) hadv
  exact .step hadv (.here (hP t' r hhp hr))

/-- A path on which everything is as planned. -/
theorem ends_ready :
    ∀ {t : Table K V}, t.Inv cfg m → Counts t.hashpower P → PathOk cfg u.key t.hashpower path →
      depth < path.length → Ready cfg t path depth →
      Ends cfg P t (.moving u t.hashpower path depth) := by
  -- on the elements that are still to be moved
  induction depth with
  | zero =>
    intro t h hP hpath hdepth hready
    have hr : path[0]? = some path[0] := List.getElem?_eq_getElem hdepth
    obtain ⟨t', r, hres, hne⟩ := ends_moveNone h (hpath.first _ hr)
      (hpath.inRange _ (List.mem_of_getElem? hr)).2 (hready.migrated _ hr) (hready.empty _ hr)
    have hmove : t.advance cfg (.moving u t.hashpower path 0) =
        t.moveNone cfg u t.hashpower path[0] := by
      rw [Table.advance, Table.move, hr, Option.bind_some]
    exact ends_move h hP hpath hdepth (hmove.trans hres) hne
  | succ depth ih =>
    intro t h hP hpath hdepth hready
    have hsource : path[depth]? = some path[depth] :=
      List.getElem?_eq_getElem (Nat.lt_of_succ_lt hdepth)
    have htarget : path[depth + 1]? = some path[depth + 1] := List.getElem?_eq_getElem hdepth
    have hmove : t.advance cfg (.moving u t.hashpower path (depth + 1)) =
        t.moveOne cfg u t.hashpower path depth path[depth] path[depth + 1] := by
      rw [Table.advance, Table.move, hsource, Option.bind_some, htarget, Option.bind_some]
    by_cases hzero : depth = 0
    · subst hzero
      obtain ⟨t', r, hres, hne⟩ := ends_moveLast h hpath hready hsource htarget
      exact ends_move h hP hpath hdepth (hmove.trans hres) hne
    · have hlocks : ∀ l ∈ Table.lockTwoOrder (lockInd path[depth].bucket)
          (lockInd path[depth + 1].bucket), l < t.numLocks := by
        intro l hl
        rcases mem_lockTwoOrder.mp hl with rfl | rfl
        · exact h.lockInd_lt (hpath.inRange _ (List.mem_of_getElem? hsource)).1
        · exact h.lockInd_lt (hpath.inRange _ (List.mem_of_getElem? htarget)).1
      obtain ⟨t₁, hlock, hinv₁, hkept, -⟩ := h.lockAt hlocks
      have hpath₁ := hpath
      rw [← hkept.hashpower] at hpath₁
      obtain ⟨t₂, hshift, hinv₂, hhp, -, hready₂⟩ :=
        ready_shift hinv₁ hpath₁ (hready.kept hkept) hsource htarget
      have hhp₂ : t₂.hashpower = t.hashpower := hhp.trans hkept.hashpower
      have hends := ih hinv₂ (by rw [hhp₂]; exact hP) (by rw [hhp₂]; exact hpath)
        (Nat.lt_of_succ_lt hdepth) hready₂
      refine .step (hmove.trans ?_) hends
      rw [Table.moveOne, if_neg hzero, Table.lockTwo, hlock, Table.withLocks, hshift,
        Option.bind_some]
      dsimp only
      rw [if_neg hzero, hhp₂]

omit [DecidableEq K] in
/-- The lock of a bucket that has been migrated. -/
theorem lockOne_migrated (h : t.Inv cfg m) (hi : i < hashsize t.hashpower)
    (hmig : t.isMigrated (lockInd i) = true) : t.lockOne cfg t.hashpower i = some (some t) := by
  have hlocks : ∀ l ∈ [lockInd i], l < t.numLocks := by
    intro l hl
    rw [List.mem_singleton.mp hl]
    exact h.lockInd_lt hi
  rw [Table.lockOne, Table.lockAt, if_pos hlocks, if_pos rfl, List.foldlM_cons, Table.rehashLock,
    if_pos hmig]
  rfl

/-- A way that has been recorded in part. -/
theorem ends_way {a c : Nat} (h : t.Inv cfg m) (hP : Counts t.hashpower P) (ss : List Nat) :
    ∀ {path : List CuckooRecord} {bucket : Nat},
      Pc.Ok cfg t.hashpower (.walking u t.hashpower path bucket (ss ++ [s]) : Pc K V) →
      Way cfg t u.key a path bucket ss s c →
      Ends cfg P t (.walking u t.hashpower path bucket (ss ++ [s])) := by
  -- on the buckets that are still to be read
  induction ss with
  | nil =>
    intro path bucket hok hway
    obtain ⟨-, hpath, hnext, hbucket, -, hslots, hlen⟩ := hok
    obtain ⟨hmig, hempty, hready⟩ := hway.ready ⟨0, 0⟩
    rw [List.nil_append, List.length_singleton] at hlen
    have hadv : t.advance cfg (.walking u t.hashpower path bucket [s]) =
        some (t, .moving u t.hashpower (path ++ [⟨bucket, s, ⟨0, 0⟩⟩]) path.length) := by
      rw [Table.advance, Table.walk, if_pos (by omega), lockOne_migrated h hbucket hmig,
        Table.withLocks, Table.get_eq hbucket, Option.bind_some]
      dsimp only
      rw [hempty]
    refine .step hadv (ends_ready h hP (hpath.snoc hnext ⟨hbucket, hway.slot⟩) ?_ hready)
    rw [List.length_append, List.length_singleton]
    exact Nat.lt_succ_self _
  | cons s' ss ih =>
    intro path bucket hok hway
    have hgood := good_walk h hok
    obtain ⟨-, -, -, hbucket, -, -, hlen⟩ := hok
    obtain ⟨hmig, e, he, hway'⟩ := hway.snoc
    obtain ⟨-, htag, hhome⟩ := h.placed bucket s' e he
    rw [List.length_append, List.length_singleton] at hlen
    have hwalk : t.walk cfg u t.hashpower path bucket (s' :: ss ++ [s]) =
        some (t, .walking u t.hashpower (path ++ [⟨bucket, s', cfg.hashedKey e.key⟩])
          (altIndex t.hashpower e.partialKey bucket) (ss ++ [s])) := by
      rw [List.cons_append, Table.walk, if_pos (by omega), lockOne_migrated h hbucket hmig,
        Table.withLocks, Table.get_eq hbucket, Option.bind_some]
      dsimp only
      rw [he]
      dsimp only
      rw [if_neg (List.append_ne_nil_of_right_ne_nil _ (List.cons_ne_nil s [])), if_pos hhome, htag]
    rw [hwalk] at hgood
    exact .step hwalk (ih (hgood.on rfl).2 hway')

omit [DecidableEq K] in
/-- One turn of `slot_search`, once the lock is taken. -/
theorem search_eq {last : Nat} {x : BSlot} {rest : List BSlot} {r : BSlot ⊕ BQueue}
    (hlock : t.lockOne cfg hp x.bucket = some (some t')) (hx : x.bucket < hashsize t'.hashpower)
    (hscan : scanSlots hp (fun s => t'.buckets.cells (x.bucket, s)) x (List.range slotPerBucket)
      ⟨rest, last⟩ = some r) :
    t.search cfg u hp ⟨x :: rest, last⟩ =
      r.elim (t'.walkFrom cfg u hp) fun q => some (t', .searching u hp q) := by
  rw [Table.search]
  dsimp only
  rw [hlock, Table.withLocks, Table.get_eq hx, Option.bind_some, hscan, Option.bind_some]
  cases r <;> rfl

/-- One turn of a search that no one has disturbed. -/
theorem fresh_search (h : t.Inv cfg m) {x : BSlot} {rest : List BSlot} {last : Nat}
    (hq : Fresh cfg t u.key ⟨x :: rest, last⟩) :
    ∃ t', t'.Inv cfg m ∧ t'.hashpower = t.hashpower ∧
      ((∃ q', t.search cfg u t.hashpower ⟨x :: rest, last⟩ =
        some (t', .searching u t.hashpower q') ∧
          Fresh cfg t' u.key q' ∧ q'.left < BQueue.left ⟨x :: rest, last⟩) ∨
        ∃ a ss s c, t.search cfg u t.hashpower ⟨x :: rest, last⟩ =
            some (t', .walking u t.hashpower [] a (ss ++ [s])) ∧
              Way cfg t' u.key a [] a ss s c) := by
  have hx := hq.ok.items x List.mem_cons_self
  have hlocks : ∀ l ∈ [lockInd x.bucket], l < t.numLocks := by
    intro l hl
    rw [List.mem_singleton.mp hl]
    exact h.lockInd_lt hx.bucket
  obtain ⟨t', hlock, hinv, hkept, hmigrated⟩ := h.lockAt hlocks
  have hmig := hmigrated _ (List.mem_singleton_self _)
  have hq' := hq.kept hkept
  have hhp := hkept.hashpower
  obtain ⟨r, hscan, hr⟩ := scan_spec (b := fun s => t'.buckets.cells (x.bucket, s)) hq.ok
  have hsearch := search_eq (u := u) hlock (by rw [hhp]; exact hx.bucket) hscan
  refine ⟨t', hinv, hhp, ?_⟩
  cases r with
  | inr q' =>
    left
    have hlast : last ≤ maxCuckooCount := Nat.le_trans (Nat.le_add_right _ _) hq.ok.room
    rw [← hhp] at hscan hr
    obtain ⟨hleft, hocc, ys, hslots, hys, hall⟩ := scanSlots_full _ hlast hscan
    have hoccupied : ∀ s, s < slotPerBucket → (t'.buckets.cells (x.bucket, s)).isSome := by
      intro s hs
      obtain ⟨i, hi, rfl⟩ := x.slotAt_surj hs
      exact hocc i hi
    refine ⟨q', hsearch, hq'.scan hr ⟨hmig, hoccupied⟩ hslots hys fun hlt s e hs he => ?_, ?_⟩
    · obtain ⟨i, hi, rfl⟩ := x.slotAt_surj hs
      exact hall hlt i hi e he
    · rw [hleft, BQueue.left, BQueue.left, List.length_cons]
      dsimp only
      omega
  | inl y =>
    right
    obtain ⟨s, hs, hempty, rfl⟩ := hr
    obtain ⟨a, hbegins, hway⟩ := hq'.way hmig hs hempty
    refine ⟨a, _, s, _, hsearch.trans ?_, hway⟩
    rw [hhp] at hbegins
    rw [Sum.elim_inl, Table.walkFrom, hx.pathSlots_extend hs]
    dsimp only
    rcases hbegins with ⟨hzero, rfl⟩ | ⟨hone, rfl⟩
    · rw [if_pos hzero]
    · rw [if_neg (by rw [hone]; decide), if_pos hone]

/-- A search that no one has disturbed ends, if what follows a failed one does. -/
theorem ends_fresh (hP : Counts hp P)
    (hexpand : ∀ t' : Table K V, t'.Inv cfg m → t'.hashpower = hp →
      Ends cfg P t' (.expanding u hp)) :
    ∀ {q : BQueue} {t : Table K V}, t.Inv cfg m → t.hashpower = hp → Fresh cfg t u.key q →
      Ends cfg P t (.searching u hp q) := by
  intro q
  induction hn : q.left using Nat.strongRecOn generalizing q with
  | ind n ih =>
    subst hn
    intro t h hhp hq
    subst hhp
    obtain ⟨slots, last⟩ := q
    cases slots with
    | nil => exact .step rfl (hexpand t h rfl)
    | cons x rest =>
      have hgood := good_search h (Nat.le_refl _) hq.ok (u := u)
      obtain ⟨t', hinv, hhp, ⟨q', hsearch, hfresh, hleft⟩ | ⟨a, ss, s, c, hsearch, hway⟩⟩ :=
        fresh_search h hq
      · exact .step hsearch (ih _ hleft rfl hinv hhp hfresh)
      · rw [hsearch] at hgood
        have hok := (hgood.on rfl).2
        rw [← hhp] at hok
        have hends := ends_way hinv (by rw [hhp]; exact hP) ss hok hway
        rw [hhp] at hends
        exact .step hsearch hends

/-! ## A call from its start -/

/-- A table of a given number of elements is not doubled forever. -/
def Config.Bounded (cfg : Config K) : Prop :=
  ∀ size : Int, ∃ hp₀, ∀ hp, hp₀ ≤ hp →
    (cfg.maximumHashpower.any fun mhp => mhp < hp + 1) = true ∨
      cfg.loadFactorTooLow size (hashsize hp * slotPerBucket) = true

/-- The two locks are about to be taken. -/
theorem ends_locking (h : t.Inv cfg m) (hP : Counts t.hashpower P)
    (hexpand : ∀ u, c = .uprase u → ∀ t' : Table K V, t'.Inv cfg m → t'.hashpower = t.hashpower →
      Ends cfg P t' (.expanding u t.hashpower)) : Ends cfg P t (.locking c t.hashpower) := by
  obtain ⟨t₁, hlock, hinv, hkept, hlocked⟩ := lockTwo_key h c.key
  obtain ⟨t', pc', -, hserve, -⟩ := good_serve hinv hlocked
  have hadv : t.advance cfg (.locking c t.hashpower) = some (t', pc') := by
    rw [Table.advance, hlock, Table.withLocks, ← hkept.hashpower]
    exact hserve
  rcases serve_answers hserve with ⟨r, rfl, hr⟩ | ⟨u, rfl, rfl, rfl⟩
  · have hok : (Pc.locking c t.hashpower).Ok cfg t.hashpower := Nat.le_refl _
    have hhp := advance_hashpower h hok rfl (fun _ _ heq => by cases heq) hadv
    exact .step hadv (.here (hP t' r hhp hr))
  · refine .step hadv (ends_fresh (by rw [hkept.hashpower]; exact hP) ?_ hinv rfl
      (fresh_start cfg t' u.key))
    intro t'' h'' hhp''
    rw [hkept.hashpower] at hhp'' ⊢
    exact hexpand u rfl t'' h'' hhp''

omit [DecidableEq K] in
theorem checkResizeValidity_same (t : Table K V) (hp : Nat) :
    t.checkResizeValidity cfg t.hashpower hp ≠ .underExpansion := by
  rw [Table.checkResizeValidity]
  split
  · exact fun heq => by cases heq
  · split
    · exact fun heq => by cases heq
    · rw [if_neg (not_not_intro rfl)]
      exact fun heq => by cases heq

omit [DecidableEq K] in
/-- `cuckoo_fast_double` is given up. -/
theorem checkResizeValidity_threw
    (h : (cfg.maximumHashpower.any fun mhp => mhp < t.hashpower + 1) = true ∨
      cfg.loadFactorTooLow t.size (hashsize t.hashpower * slotPerBucket) = true) :
    t.checkResizeValidity cfg t.hashpower (t.hashpower + 1) = .threw := by
  rw [Table.checkResizeValidity]
  rcases h with hmax | hlow
  · rw [if_pos hmax]
  · split
    · rfl
    · exact if_pos hlow

/-- The table is to be doubled. -/
theorem ends_doubling (h : t.Inv cfg m)
    (hnext : t.checkResizeValidity cfg t.hashpower (t.hashpower + 1) = .ok → ∀ t' : Table K V,
      t'.Inv cfg m → t'.hashpower = t.hashpower + 1 →
        Ends cfg Answered t' (.snapshot (.uprase u))) :
    Ends cfg Answered t (.expanding u t.hashpower) := by
  obtain ⟨t', hdouble, hinv, hcase⟩ := h.cuckooFastDouble t.hashpower
  have hadv : t.advance cfg (.expanding u t.hashpower) = t.expand cfg u t.hashpower := rfl
  rw [Table.expand, hdouble] at hadv
  cases hst : t.checkResizeValidity cfg t.hashpower (t.hashpower + 1) with
  | underExpansion => exact absurd hst (checkResizeValidity_same t _)
  | threw =>
    rw [hst] at hadv
    exact .step hadv (ends_answered t' .threw)
  | ok =>
    rw [hst] at hadv
    rcases hcase with ⟨-, -, hhp⟩ | ⟨hnot, -⟩
    · exact .step hadv (hnext hst t' hinv hhp)
    · exact absurd hst hnot

/-- A call that begins while no one else runs. -/
theorem ends_snapshot (hbounded : cfg.Bounded) (h : t.Inv cfg m) (c : Call K V) :
    Ends cfg Answered t (.snapshot c) := by
  obtain ⟨hp₀, hstop⟩ := hbounded (keys m).ncard
  obtain ⟨n, hn⟩ : ∃ n, hp₀ ≤ t.hashpower + n := ⟨hp₀, Nat.le_add_left _ _⟩
  -- on the number of times that the table can still be doubled
  induction n generalizing t with
  | zero =>
    refine .step rfl (ends_locking h (counts_answered _) fun u hu t' h' hhp => ?_)
    rw [← hhp]
    refine ends_doubling h' fun hok => ?_
    rw [checkResizeValidity_threw] at hok
    · cases hok
    · rw [h'.size_eq]
      exact hstop _ (by rw [hhp]; exact hn)
  | succ n ih =>
    refine .step rfl (ends_locking h (counts_answered _) fun u hu t' h' hhp => ?_)
    rw [← hhp]
    refine ends_doubling h' fun hok t'' h'' hhp'' => ?_
    rw [← hu]
    exact ih h'' (by omega)

/-! ## A call that has been disturbed -/

/-- What is left of a search, of a walk or of the moves; each goes over into the next. -/
def Pc.rank : Pc K V → Nat
  | .searching _ _ q => 2 * maxBfsPathLen + 1 + q.left
  | .walking _ _ _ _ slots => maxBfsPathLen + slots.length
  | .moving _ _ _ depth => depth
  | _ => 0

/-- After a step an insertion is nearer to its end, or begins again. -/
inductive Falls (cfg : Config K) (u : Uprase K V) (n : Nat) : Pc K V → Prop
  | answered (r : Ret V) : Falls cfg u n (.answered r)
  | snapshot : Falls cfg u n (.snapshot (.uprase u))
  | again (hp : Nat) : Falls cfg u n (Table.again cfg u hp)
  | expanding (hp : Nat) : Falls cfg u n (.expanding u hp)
  | lower {pc : Pc K V} : pc.rank < n → Falls cfg u n pc

omit [DecidableEq K] in
theorem withLocks_cases {locked : Option (Option (Table K V))} {retry : Pc K V}
    {body : Table K V → Option (Table K V × Pc K V)}
    (h : t.withLocks locked retry body = some (t', pc')) :
    pc' = retry ∨ ∃ t₁, body t₁ = some (t', pc') := by
  rw [Table.withLocks.eq_def] at h
  split at h
  · cases h
  · cases h
    exact .inl rfl
  · exact .inr ⟨_, h⟩

omit [DecidableEq K] in
theorem search_falls {q : BQueue} (hq : q.Ok hp) (h : t.search cfg u hp q = some (t', pc')) :
    Falls cfg u (Pc.searching u hp q : Pc K V).rank pc' := by
  obtain ⟨slots, last⟩ := q
  cases slots with
  | nil =>
    cases h
    exact .expanding hp
  | cons x rest =>
    have hx := hq.items x List.mem_cons_self
    have hlast : last ≤ maxCuckooCount := Nat.le_trans (Nat.le_add_right _ _) hq.room
    rcases withLocks_cases h with rfl | ⟨t₁, hbody⟩
    · exact .snapshot
    · obtain ⟨b, -, hb⟩ := Option.bind_eq_some_iff.mp hbody
      obtain ⟨r, hscan, hr⟩ := Option.bind_eq_some_iff.mp hb
      cases r with
      | inr q' =>
        cases hr
        have hleft := (scanSlots_full _ hlast hscan).1
        refine .lower ?_
        rw [Pc.rank, Pc.rank, hleft, BQueue.left, BQueue.left, List.length_cons]
        dsimp only
        omega
      | inl y =>
        obtain ⟨r', hscan', hr'⟩ := scan_spec (b := b) hq
        cases hscan.symm.trans hscan'
        obtain ⟨s, -, -, rfl⟩ := hr'
        have hlen := (pathSlots_spec (x.depth + 1) (x.extend s) [] (by simp)).2.1
        have hdepth := hx.depth
        -- both of the branches walk the same slots
        have hrank : maxBfsPathLen + (pathSlots (x.depth + 1) (x.extend s) []).1.length <
            (Pc.searching u hp ⟨x :: rest, last⟩ : Pc K V).rank := by
          rw [hlen, Pc.rank, List.length_nil]
          omega
        dsimp only [Table.walkFrom] at hr
        split at hr
        · cases hr
          exact .lower hrank
        · split at hr
          · cases hr
            exact .lower hrank
          · cases hr

omit [DecidableEq K] in
theorem walk_falls {bucket : Nat} {slots : List Nat}
    (h : t.walk cfg u hp path bucket slots = some (t', pc')) :
    Falls cfg u (Pc.walking u hp path bucket slots : Pc K V).rank pc' := by
  cases slots with
  | nil => cases h
  | cons slot rest =>
    rw [Table.walk] at h
    split at h
    · rename_i hlen
      have hrank : path.length < (Pc.walking u hp path bucket (slot :: rest) : Pc K V).rank := by
        rw [Pc.rank]
        omega
      rcases withLocks_cases h with rfl | ⟨t₁, hbody⟩
      · exact .snapshot
      · obtain ⟨b, -, hb⟩ := Option.bind_eq_some_iff.mp hbody
        cases hcell : b slot with
        | none =>
          rw [hcell] at hb
          cases hb
          exact .lower hrank
        | some e =>
          rw [hcell] at hb
          dsimp only at hb
          split at hb
          · cases hb
            exact .lower hrank
          · split at hb
            · cases hb
              refine .lower ?_
              rw [Pc.rank, Pc.rank, List.length_cons]
              omega
            · cases hb
    · cases h

theorem moveNone_falls {n : Nat} (h : t.moveNone cfg u hp r = some (t', pc')) :
    Falls cfg u n pc' := by
  rw [Table.moveNone] at h
  split at h
  · rcases withLocks_cases h with rfl | ⟨t₁, hbody⟩
    · exact .snapshot
    · obtain ⟨b, -, hb⟩ := Option.bind_eq_some_iff.mp hbody
      split at hb
      · obtain ⟨r', rfl, -⟩ := insertMoved_answers hb
        exact .answered r'
      · cases hb
        exact .again hp
  · cases h

theorem moveOne_falls (h : t.moveOne cfg u hp path depth source target = some (t', pc')) :
    Falls cfg u (depth + 1) pc' := by
  rcases withLocks_cases h with rfl | ⟨t₁, hbody⟩
  · exact .snapshot
  · obtain ⟨moved, -, hb⟩ := Option.bind_eq_some_iff.mp hbody
    cases moved with
    | none =>
      cases hb
      exact .again hp
    | some t₂ =>
      dsimp only at hb
      split at hb
      · obtain ⟨r, rfl, -⟩ := insertMoved_answers hb
        exact .answered r
      · cases hb
        exact .lower (Nat.lt_succ_self depth)

theorem move_falls (h : t.move cfg u hp path depth = some (t', pc')) :
    Falls cfg u (Pc.moving u hp path depth : Pc K V).rank pc' := by
  cases depth with
  | zero =>
    obtain ⟨r, -, hr⟩ := Option.bind_eq_some_iff.mp h
    exact moveNone_falls hr
  | succ depth =>
    obtain ⟨source, -, hsource⟩ := Option.bind_eq_some_iff.mp h
    obtain ⟨target, -, htarget⟩ := Option.bind_eq_some_iff.mp hsource
    exact moveOne_falls htarget

/-! ## From any state -/

theorem ends_expanding (hbounded : cfg.Bounded) (h : t.Inv cfg m) (u : Uprase K V) (hp : Nat) :
    Ends cfg Answered t (.expanding u hp) := by
  obtain ⟨t', hdouble, hinv, -⟩ := h.cuckooFastDouble hp
  have hadv : t.advance cfg (.expanding u hp) = t.expand cfg u hp := rfl
  rw [Table.expand, hdouble] at hadv
  cases hst : t.checkResizeValidity cfg hp (hp + 1) with
  | threw =>
    rw [hst] at hadv
    exact .step hadv (ends_answered t' .threw)
  | ok =>
    rw [hst] at hadv
    exact .step hadv (ends_snapshot hbounded hinv _)
  | underExpansion =>
    rw [hst] at hadv
    exact .step hadv (ends_snapshot hbounded hinv _)

theorem ends_again (hbounded : cfg.Bounded) (h : t.Inv cfg m) (hle : hp ≤ t.hashpower) :
    Ends cfg Answered t (Table.again cfg u hp) := by
  by_cases hhp : t.hashpower = hp
  · subst hhp
    exact ends_fresh (counts_answered _) (fun t' h' _ => ends_expanding hbounded h' u _) h rfl
      (fresh_start cfg t u.key)
  · -- the first lock tells that the table has been doubled
    have hlocks : ∀ l ∈ [lockInd (Table.i1 cfg hp u.key)], l < t.numLocks := by
      intro l hl
      rw [List.mem_singleton.mp hl]
      exact h.lockInd_lt_of_le hle (Table.home_i1 cfg hp u.key).lt
    have hadv : t.advance cfg (Table.again cfg u hp) = some (t, .snapshot (.uprase u)) := by
      rw [Table.again, Table.advance, Table.search, BQueue.start]
      dsimp only
      rw [Table.lockOne, Table.lockAt_changed hlocks hhp, Table.withLocks]
    exact .step hadv (ends_snapshot hbounded h _)

theorem ends_locked (hbounded : cfg.Bounded) (h : t.Inv cfg m) (hle : hp ≤ t.hashpower) :
    Ends cfg Answered t (.locking c hp) := by
  by_cases hhp : t.hashpower = hp
  · subst hhp
    exact ends_locking h (counts_answered _) fun u _ t' h' _ => ends_expanding hbounded h' u _
  · have hlocks : ∀ l ∈ Table.lockTwoOrder (lockInd (Table.i1 cfg hp c.key))
        (lockInd (Table.i2 cfg hp c.key)), l < t.numLocks := by
      intro l hl
      rcases mem_lockTwoOrder.mp hl with rfl | rfl
      · exact h.lockInd_lt_of_le hle (Table.home_i1 cfg hp c.key).lt
      · exact h.lockInd_lt_of_le hle (Table.home_i2 cfg hp c.key).lt
    have hadv : t.advance cfg (.locking c hp) = some (t, .snapshot c) := by
      rw [Table.advance, Table.lockTwo, Table.lockAt_changed hlocks hhp, Table.withLocks]
    exact .step hadv (ends_snapshot hbounded h _)

/-- The call of a thread that is left alone in any state is answered. -/
theorem ends_call (hbounded : cfg.Bounded) (h : t.Inv cfg m) (hok : pc.Ok cfg t.hashpower)
    (hphase : pc.phase = .called c) : Ends cfg Answered t pc := by
  induction hn : pc.rank using Nat.strongRecOn generalizing t pc with
  | ind n ih =>
    subst hn
    -- a step of an insertion that searches, walks or moves
    have hfall : ∀ u, c = .uprase u →
        (∀ t' pc', t.advance cfg pc = some (t', pc') → Falls cfg u pc.rank pc') →
          Ends cfg Answered t pc := by
      rintro u rfl hfalls
      obtain ⟨t', pc', m', hadv, hinv, -, hok', hres⟩ := good_advance h hok hphase
      refine .step hadv ?_
      rcases hres with ⟨hphase', rfl⟩ | ⟨r, rfl, -⟩
      · cases hfalls t' pc' hadv with
        | answered r => exact ends_answered t' r
        | snapshot => exact ends_snapshot hbounded hinv _
        | again hp => exact ends_again hbounded hinv hok'.1
        | expanding hp => exact ends_expanding hbounded hinv u hp
        | lower hlt => exact ih _ hlt hinv hok' hphase' rfl
      · exact ends_answered t' r
    cases pc with
    | idle => cases hphase
    | answered r => cases hphase
    | snapshot c' => exact ends_snapshot hbounded h c'
    | locking c' hp => exact ends_locked hbounded h hok
    | expanding u hp => exact ends_expanding hbounded h u hp
    | searching u hp q =>
      cases hphase
      exact hfall u rfl fun t' pc' hadv => search_falls hok.2 hadv
    | walking u hp path bucket slots =>
      cases hphase
      exact hfall u rfl fun t' pc' hadv => walk_falls hadv
    | moving u hp path depth =>
      cases hphase
      exact hfall u rfl fun t' pc' hadv => move_falls hadv

/-- With a minimum load factor of 1/20 a table is not doubled forever. -/
theorem plainConfig_bounded : plainConfig.Bounded := by
  intro size
  refine ⟨(20 * size).toNat, fun hp hle => .inr ?_⟩
  have hlt : hp < hashsize hp := by
    rw [hashsize_eq]
    exact Nat.lt_two_pow_self
  refine decide_eq_true ?_
  rw [slotPerBucket]
  omega

end LogDirect.Cuckoo
