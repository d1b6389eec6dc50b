import LogDirect.Cuckoo.Search
import LogDirect.Cuckoo.Serve

/-!
# libcuckoo: every step of a thread

The specification of the table is a plain map (`Call.exec`). Each step of a thread in the
middle of a call either leaves the map as it is, or is the one in which the call takes
effect, and then the answer is that of the map (`good_advance`). No step faults: no
`assert` fails, no bucket or lock outside its array is touched, and no old bucket is read
after it has been freed.
-/

namespace LogDirect.Cuckoo

open Lib Lib.Cells Lib.Atomic

variable {K V : Type} [DecidableEq K]

/-! ## The specification -/

/-- The calls on a plain map. -/
def Call.exec (m : K → Option V) : Call K V → Ret V × (K → Option V)
  | .find key => (.found (m key), m)
  | .update key fn =>
      match m key with
      | none => (.updated false, m)
      | some v => (.updated true, Function.update m key (some (fn v)))
  | .erase key fn =>
      match m key with
      | none => (.erased false, m)
      | some v => (.erased true, Table.applyFn m key fn v)
  | .uprase u =>
      match m u.key with
      | some v => (.inserted false, Table.applyFn m u.key (u.fn .alreadyExisted) v)
      | none => (.inserted true, Table.applyFn m u.key (u.fn .newlyInserted) u.val)

theorem Call.exec_insertOrAssign (m : K → Option V) (key : K) (val : V) :
    (Call.insertOrAssign key val).exec m =
      (.inserted (m key).isNone, Function.update m key (some val)) := by
  rw [Call.insertOrAssign, Call.upsert, Call.exec]
  cases m key with
  | none => rfl
  | some v => rfl

theorem Call.exec_eraseKey (m : K → Option V) (key : K) :
    (Call.eraseKey key).exec m = (.erased (m key).isSome, Function.update m key none) := by
  rw [Call.eraseKey, Call.exec]
  cases h : m key with
  | none =>
    rw [← h, Function.update_eq_self, h]
    rfl
  | some v => rfl

/-- What a call may do: what it does to the map, or nothing if an insertion is given up
because the table may not grow. -/
def Effect (c : Call K V) (m : K → Option V) (r : Ret V) (m' : K → Option V) : Prop :=
  (r, m') = c.exec m ∨ (r = .threw ∧ m' = m ∧ ∃ u, c = .uprase u)

/-- A thread as its caller sees it. -/
def Pc.phase : Pc K V → Phase (Call K V) (Ret V)
  | .idle => .idle
  | .snapshot c => .called c
  | .locking c _ => .called c
  | .searching u _ _ => .called (.uprase u)
  | .walking u _ _ _ _ => .called (.uprase u)
  | .moving u _ _ _ => .called (.uprase u)
  | .expanding u _ => .called (.uprase u)
  | .answered r => .answered r

/-- What a thread knows for sure, in a table of a hashpower that can only grow. -/
def Pc.Ok (cfg : Config K) (hashpower : Nat) : Pc K V → Prop
  | .idle => True
  | .snapshot _ => True
  | .locking _ hp => hp ≤ hashpower
  | .searching _ hp q => hp ≤ hashpower ∧ q.Ok hp
  | .walking u hp path bucket slots =>
      hp ≤ hashpower ∧ PathOk cfg u.key hp path ∧ PathNext cfg u.key hp path bucket ∧
        bucket < hashsize hp ∧ slots ≠ [] ∧ (∀ s ∈ slots, s < slotPerBucket) ∧
        path.length + slots.length ≤ maxBfsPathLen
  | .moving u hp path depth => hp ≤ hashpower ∧ PathOk cfg u.key hp path ∧ depth < path.length
  | .expanding _ hp => hp ≤ hashpower
  | .answered _ => True

variable {a b hp i l : Nat} {pc : Pc K V} {u : Uprase K V} {path : List CuckooRecord}
  {source target : CuckooRecord}

omit [DecidableEq K] in
theorem Pc.Ok.mono {cfg : Config K} (h : pc.Ok cfg a) (hab : a ≤ b) : pc.Ok cfg b := by
  cases pc with
  | idle => exact trivial
  | snapshot c => exact trivial
  | locking c hp => exact Nat.le_trans h hab
  | searching u hp q => exact ⟨Nat.le_trans h.1 hab, h.2⟩
  | walking u hp path bucket slots => exact ⟨Nat.le_trans h.1 hab, h.2⟩
  | moving u hp path depth => exact ⟨Nat.le_trans h.1 hab, h.2⟩
  | expanding u hp => exact Nat.le_trans h hab
  | answered r => exact trivial

/-- A step of the call `c` that is as it should be, to a table of one of the hashpowers
`grown`. -/
def Good (cfg : Config K) (m : K → Option V) (grown : Nat → Prop) (c : Call K V)
    (res : Option (Table K V × Pc K V)) : Prop :=
  ∃ t' pc' m', res = some (t', pc') ∧ t'.Inv cfg m' ∧ grown t'.hashpower ∧
    pc'.Ok cfg t'.hashpower ∧
    ((pc'.phase = .called c ∧ m' = m) ∨ ∃ r, pc' = .answered r ∧ Effect c m r m')

variable {cfg : Config K} {m : K → Option V} {t : Table K V} {c : Call K V}

/-- The call goes on. -/
theorem good_on (h : t.Inv cfg m) (hok : pc.Ok cfg t.hashpower) (hphase : pc.phase = .called c) :
    Good cfg m (Eq t.hashpower) c (some (t, pc)) :=
  ⟨t, pc, m, rfl, h, rfl, hok, .inl ⟨hphase, rfl⟩⟩

/-- The call takes effect. -/
theorem good_effect {t' : Table K V} {r : Ret V} {m' : K → Option V} (h : t'.Inv cfg m')
    (hhp : t'.hashpower = t.hashpower) (heff : Effect c m r m') :
    Good cfg m (Eq t.hashpower) c (some (t', .answered r)) :=
  ⟨t', .answered r, m', rfl, h, hhp.symm, trivial, .inr ⟨r, rfl, heff⟩⟩

/-! ## Locks -/

omit [DecidableEq K] in
theorem Table.Inv.lockInd_lt_of_le (h : t.Inv cfg m) (hle : hp ≤ t.hashpower)
    (hi : i < hashsize hp) : lockInd i < t.numLocks := by
  refine h.lockInd_lt (Nat.lt_of_lt_of_le hi ?_)
  rw [hashsize_eq, hashsize_eq]
  exact Nat.pow_le_pow_right (by decide) hle

/-- Either the table has been doubled since, or the step is taken with the locks. -/
theorem good_withLocks (h : t.Inv cfg m) {ls : List Nat} (hls : ∀ l ∈ ls, l < t.numLocks)
    {body : Table K V → Option (Table K V × Pc K V)}
    (hbody : ∀ t' : Table K V, t'.Inv cfg m → t'.hashpower = hp →
      (∀ l ∈ ls, t'.isMigrated l = true) → Good cfg m (Eq t'.hashpower) c (body t')) :
    Good cfg m (Eq t.hashpower) c (t.withLocks (t.lockAt cfg hp ls) (.snapshot c) body) := by
  by_cases hhp : t.hashpower = hp
  · subst hhp
    obtain ⟨t', hlock, hinv, hkept, hmig⟩ := h.lockAt hls
    rw [hlock, Table.withLocks, ← hkept.hashpower]
    exact hbody t' hinv hkept.hashpower hmig
  · rw [Table.lockAt_changed hls hhp, Table.withLocks]
    exact good_on h trivial rfl

theorem mem_lockTwoOrder : l ∈ Table.lockTwoOrder a b ↔ l = a ∨ l = b := by
  rw [Table.lockTwoOrder]
  split
  · rw [List.mem_pair, or_comm]
  · rw [List.mem_pair]

theorem mem_swapIf {x : Nat × Nat} {b : Bool} :
    (l = (Table.swapIf b x).1 ∨ l = (Table.swapIf b x).2) ↔ (l = x.1 ∨ l = x.2) := by
  cases b
  · rfl
  · exact or_comm

theorem mem_lockThreeOrder {d : Nat} : l ∈ Table.lockThreeOrder a b d ↔ l = a ∨ l = b ∨ l = d := by
  rw [Table.lockThreeOrder]
  simp only [List.mem_cons, List.not_mem_nil, or_false]
  -- the three exchanges, the last one first
  rw [← or_assoc, mem_swapIf, or_right_comm, mem_swapIf, or_assoc]
  exact or_congr_right ((or_comm).trans mem_swapIf)

/-! ## Serving a call -/

/-- The key has been found in a slot. -/
theorem good_upraseAt (h : t.Inv cfg m) {s : Nat} {e : Entry K V}
    (he : t.buckets.cells (i, s) = some e) (hkey : e.key = u.key) :
    Good cfg m (Eq t.hashpower) (.uprase u) (t.upraseAt u i s) := by
  obtain ⟨t', hinv, hinv', hhp⟩ := h.invoke he (u.fn .alreadyExisted)
  rw [Table.upraseAt, hinv]
  refine good_effect hinv' hhp (.inl ?_)
  have hm := h.both.shows (.inr (i, s)) e he
  rw [hkey] at hm
  rw [Call.exec, hm, hkey]

/-- A slot for the key has been found. -/
theorem good_insertAt (h : t.Inv cfg m) (hlocked : t.Locked cfg u.key) {s : Nat}
    (hi : Home t.hashpower (cfg.hashedKey u.key) i) (hs : s < slotPerBucket)
    (hfree : t.buckets.cells (i, s) = none) (hkey : m u.key = none) :
    Good cfg m (Eq t.hashpower) (.uprase u) (t.insertAt cfg u i s) := by
  obtain ⟨t₁, hadd, hinv₁, hhp₁, hcell⟩ := h.addToBucket u.val hlocked hi hs hfree hkey
  obtain ⟨t₂, hinvoke, hinv₂, hhp₂⟩ := hinv₁.invoke hcell (u.fn .newlyInserted)
  rw [Table.insertAt, hadd, Option.bind_some, hinvoke]
  refine good_effect hinv₂ (hhp₂.trans hhp₁) (.inl ?_)
  rw [Call.exec, hkey]
  simp only [Table.applyFn, Function.update_idem]

theorem good_serve (h : t.Inv cfg m) (hlocked : t.Locked cfg c.key) :
    Good cfg m (Eq t.hashpower) c (t.serve cfg t.hashpower c) := by
  cases c with
  | find key =>
    change t.Locked cfg key at hlocked
    obtain ⟨pos, hfind, hpos⟩ := h.cuckooFind hlocked
    rw [Table.serve]
    dsimp only [Call.key]
    rw [hfind]
    refine good_effect h rfl (.inl ?_)
    rw [Call.exec]
    cases pos with
    | none =>
      rw [show m key = none from hpos]
      rfl
    | some p =>
      obtain ⟨e, he, -, hm⟩ := hpos
      rw [hm, Option.bind_some, he]
      rfl
  | update key fn =>
    change t.Locked cfg key at hlocked
    obtain ⟨pos, hfind, hpos⟩ := h.cuckooFind hlocked
    rw [Table.serve]
    dsimp only [Call.key]
    rw [hfind, Option.bind_some]
    cases pos with
    | none =>
      refine good_effect h rfl (.inl ?_)
      rw [Call.exec, show m key = none from hpos]
    | some p =>
      obtain ⟨e, he, hk, hm⟩ := hpos
      obtain ⟨t', hinvoke, hinv, hhp⟩ := h.invoke (i := p.1) (s := p.2) he fun v => (fn v, false)
      dsimp only
      rw [hinvoke]
      refine good_effect hinv hhp (.inl ?_)
      rw [Call.exec, hm, hk]
      rfl
  | erase key fn =>
    change t.Locked cfg key at hlocked
    obtain ⟨pos, hfind, hpos⟩ := h.cuckooFind hlocked
    rw [Table.serve]
    dsimp only [Call.key]
    rw [hfind, Option.bind_some]
    cases pos with
    | none =>
      refine good_effect h rfl (.inl ?_)
      rw [Call.exec, show m key = none from hpos]
    | some p =>
      obtain ⟨e, he, hk, hm⟩ := hpos
      obtain ⟨t', hinvoke, hinv, hhp⟩ := h.invoke (i := p.1) (s := p.2) he fn
      dsimp only
      rw [hinvoke]
      refine good_effect hinv hhp (.inl ?_)
      rw [Call.exec, hm, hk]
  | uprase u =>
    change t.Locked cfg u.key at hlocked
    obtain ⟨place, hinsert, hplace⟩ := h.cuckooInsert hlocked
    rw [Table.serve]
    dsimp only [Call.key]
    rw [hinsert, Option.bind_some]
    cases place with
    | duplicated i s =>
      obtain ⟨e, he, hk⟩ := hplace
      exact good_upraseAt h he hk
    | ok i s =>
      obtain ⟨hi, hs, hfree, hkey⟩ := hplace
      exact good_insertAt h hlocked hi hs hfree hkey
    | full =>
      exact good_on h ⟨Nat.le_refl _, BQueue.ok_start (Table.home_i1 cfg _ _).lt
        (Table.home_i2 cfg _ _).lt⟩ rfl

/-! ## Searching -/

theorem good_again (h : t.Inv cfg m) (u : Uprase K V) :
    Good cfg m (Eq t.hashpower) (.uprase u) (some (t, Table.again cfg u t.hashpower)) :=
  good_on h ⟨Nat.le_refl _, BQueue.ok_start (Table.home_i1 cfg _ _).lt (Table.home_i2 cfg _ _).lt⟩
    rfl

theorem good_search (h : t.Inv cfg m) {q : BQueue} (hle : hp ≤ t.hashpower) (hq : q.Ok hp) :
    Good cfg m (Eq t.hashpower) (.uprase u) (t.search cfg u hp q) := by
  obtain ⟨slots, last⟩ := q
  cases slots with
  | nil => exact good_on h hle rfl
  | cons x rest =>
    have hx := hq.items x List.mem_cons_self
    rw [Table.search]
    refine good_withLocks h ?_ fun t' hinv hhp hmig => ?_
    · intro l hl
      rw [List.mem_singleton.mp hl]
      exact h.lockInd_lt_of_le hle hx.bucket
    · subst hhp
      obtain ⟨r, hscan, hr⟩ := scan_spec (b := fun s => t'.buckets.cells (x.bucket, s)) hq
      rw [Table.get_eq hx.bucket, Option.bind_some, hscan, Option.bind_some]
      cases r with
      | inr q' => exact good_on hinv ⟨Nat.le_refl _, hr⟩ rfl
      | inl y =>
        -- an empty slot: the code gives the path back
        obtain ⟨slot, hslot, -, rfl⟩ := hr
        have hcode := (hx.extend hslot).2
        obtain ⟨hrest, hlen, hslots⟩ := pathSlots_spec (x.depth + 1) (x.extend slot) [] (by simp)
        have hdiv : x.extend slot / slotPerBucket ^ (x.depth + 1) < 2 :=
          Nat.div_lt_of_lt_mul (by rwa [Nat.mul_comm])
        have hok : ∀ bucket, Home t'.hashpower (cfg.hashedKey u.key) bucket →
            Pc.Ok cfg t'.hashpower (.walking u t'.hashpower [] bucket
              (pathSlots (x.depth + 1) (x.extend slot) []).1 : Pc K V) := by
          intro bucket hb
          refine ⟨Nat.le_refl _, .nil, ⟨fun _ => hb, fun r hr => by cases hr⟩, hb.lt, ?_, hslots,
            ?_⟩
          · intro hnil
            rw [hnil] at hlen
            cases hlen
          · rw [hlen]
            have := hx.depth
            simp only [List.length_nil]
            omega
        rw [← hrest] at hdiv
        dsimp only
        rw [Table.walkFrom]
        dsimp only
        by_cases hzero : (pathSlots (x.depth + 1) (x.extend slot) []).2 = 0
        · rw [if_pos hzero]
          exact good_on hinv (hok _ (Table.home_i1 cfg _ _)) rfl
        · rw [if_neg hzero, if_pos (by omega)]
          exact good_on hinv (hok _ (Table.home_i2 cfg _ _)) rfl

theorem good_walk (h : t.Inv cfg m) {bucket : Nat} {slots : List Nat}
    (hok : Pc.Ok cfg t.hashpower (.walking u hp path bucket slots : Pc K V)) :
    Good cfg m (Eq t.hashpower) (.uprase u) (t.walk cfg u hp path bucket slots) := by
  obtain ⟨hle, hpath, hnext, hbucket, hne, hslots, hlen⟩ := hok
  cases slots with
  | nil => exact absurd rfl hne
  | cons slot rest =>
    have hslot := hslots slot List.mem_cons_self
    have hrest : ∀ s ∈ rest, s < slotPerBucket :=
      fun s hs => hslots s (List.mem_cons_of_mem slot hs)
    rw [List.length_cons] at hlen
    rw [Table.walk, if_pos (by omega)]
    refine good_withLocks h ?_ fun t' hinv hhp hmig => ?_
    · intro l hl
      rw [List.mem_singleton.mp hl]
      exact h.lockInd_lt_of_le hle hbucket
    · subst hhp
      have hsnoc : ∀ hv, PathOk cfg u.key t'.hashpower (path ++ [⟨bucket, slot, hv⟩]) :=
        fun hv => hpath.snoc hnext ⟨hbucket, hslot⟩
      have hdepth : ∀ hv, path.length < (path ++ [(⟨bucket, slot, hv⟩ : CuckooRecord)]).length := by
        intro hv
        rw [List.length_append, List.length_singleton]
        omega
      rw [Table.get_eq hbucket, Option.bind_some]
      dsimp only
      cases hcell : t'.buckets.cells (bucket, slot) with
      | none => exact good_on hinv ⟨Nat.le_refl _, hsnoc _, hdepth _⟩ rfl
      | some e =>
        have hhome := (hinv.placed bucket slot e hcell).2.2
        dsimp only
        by_cases hlast : rest = []
        · rw [if_pos hlast]
          exact good_on hinv ⟨Nat.le_refl _, hsnoc _, hdepth _⟩ rfl
        · rw [if_neg hlast, if_pos hhome]
          refine good_on hinv ⟨Nat.le_refl _, hsnoc _, ⟨?_, ?_⟩, altIndex_lt _ _ _, hlast, hrest,
            ?_⟩ rfl
          · intro hnil
            simp at hnil
          · -- the record just read leads on
            intro r hr
            rw [List.length_append, List.length_singleton, Nat.add_sub_cancel,
              List.getElem?_append_right (Nat.le_refl _), Nat.sub_self] at hr
            cases hr
            exact ⟨rfl, rfl⟩
          · rw [List.length_append, List.length_singleton]
            omega

/-! ## Moving -/

/-- A slot of one of the two buckets has been freed. -/
theorem good_insertMoved (h : t.Inv cfg m) (hlocked : t.Locked cfg u.key) {r : CuckooRecord}
    (hhome : Home t.hashpower (cfg.hashedKey u.key) r.bucket) (hslot : r.slot < slotPerBucket)
    (hfree : t.buckets.cells (r.bucket, r.slot) = none) :
    Good cfg m (Eq t.hashpower) (.uprase u) (t.insertMoved cfg u t.hashpower r) := by
  obtain ⟨pos, hfind, hpos⟩ := h.cuckooFind hlocked
  rw [Table.insertMoved, if_pos ⟨hhome, by rw [hfree]; rfl⟩, hfind, Option.bind_some]
  cases pos with
  | none => exact good_insertAt h hlocked hhome hslot hfree hpos
  | some p =>
    obtain ⟨e, he, hk, -⟩ := hpos
    exact good_upraseAt h he hk

/-- An element that is still there goes to a slot that is still empty. -/
theorem shift_hits (h : t.Inv cfg m) {e : Entry K V}
    (htarget : target.bucket < hashsize t.hashpower ∧ target.slot < slotPerBucket)
    (hleads : source.Leads t.hashpower target.bucket)
    (hmig : t.isMigrated (lockInd target.bucket) = true)
    (hto : t.buckets.cells (target.bucket, target.slot) = none)
    (hcell : t.buckets.cells (source.bucket, source.slot) = some e)
    (hhash : cfg.hashFn e.key = source.hv.hash) :
    ∃ t', t.shift cfg source target = some (some t') ∧ t'.Inv cfg m ∧ t'.hashpower = t.hashpower ∧
      t'.isMigrated = t.isMigrated ∧ t'.buckets.cells (source.bucket, source.slot) = none ∧
      ∀ p, p ≠ (source.bucket, source.slot) → p ≠ (target.bucket, target.slot) →
        t'.buckets.cells p = t.buckets.cells p := by
  have hne : (source.bucket, source.slot) ≠ (target.bucket, target.slot) := by
    intro heq
    rw [heq, hto] at hcell
    cases hcell
  have hplaced := (h.placed _ _ e hcell).2.2
  -- an element of the same hash value has the same other bucket
  have hhv : cfg.hashedKey e.key = source.hv := by
    rw [Config.hashedKey, hhash, ← hleads.hash]
  have hhome : Home t.hashpower (cfg.hashedKey e.key) target.bucket := by
    rw [hhv] at hplaced ⊢
    rw [hleads.next]
    exact hplaced.alt
  have hset := t.buckets.setKV_eq e htarget.1 htarget.2 hto
  refine ⟨t.setCells _ t.elemCounter, ?_, h.moveCell hcell hto hhome htarget.2 hmig, rfl, rfl,
    Function.update_self .., fun p hp hp' => ?_⟩
  · rw [Table.shift, Table.get_eq hplaced.lt, Option.bind_some, Table.get_eq htarget.1,
      Option.bind_some]
    dsimp only
    rw [hto, hcell]
    dsimp only
    rw [if_neg (not_not_intro hhash), hset, Option.bind_some, BucketContainer.eraseKV, if_pos]
    · rfl
    · exact congrArg Option.isSome ((Function.update_of_ne hne _ _).trans hcell)
  · exact (Function.update_of_ne hp _ _).trans (Function.update_of_ne hp' _ _)

/-- An element on the way is moved, unless something has changed there. -/
theorem shift_spec (h : t.Inv cfg m) (hsource : source.bucket < hashsize t.hashpower)
    (htarget : target.bucket < hashsize t.hashpower ∧ target.slot < slotPerBucket)
    (hleads : source.Leads t.hashpower target.bucket)
    (hmig : t.isMigrated (lockInd target.bucket) = true) :
    t.shift cfg source target = some none ∨
      ∃ t', t.shift cfg source target = some (some t') ∧ t'.Inv cfg m ∧ t'.hashpower = t.hashpower ∧
        t'.isMigrated = t.isMigrated ∧ t'.buckets.cells (source.bucket, source.slot) = none := by
  have hshift := Table.shift.eq_1 cfg t source target
  rw [Table.get_eq hsource, Option.bind_some, Table.get_eq htarget.1, Option.bind_some] at hshift
  dsimp only at hshift
  cases hto : t.buckets.cells (target.bucket, target.slot) with
  | some e' =>
    rw [hto] at hshift
    exact .inl hshift
  | none =>
    cases hcell : t.buckets.cells (source.bucket, source.slot) with
    | none =>
      rw [hto, hcell] at hshift
      exact .inl hshift
    | some e =>
      by_cases hhash : cfg.hashFn e.key = source.hv.hash
      · obtain ⟨t', hhit, hinv, hhp, hmig', hfree, -⟩ :=
          shift_hits h htarget hleads hmig hto hcell hhash
        exact .inr ⟨t', hhit, hinv, hhp, hmig', hfree⟩
      · rw [hto, hcell] at hshift
        exact .inl (hshift.trans (if_pos hhash))

omit [DecidableEq K] in
/-- The locks of the two buckets of a key. -/
theorem locked_of_mem {ls : List Nat} {key : K} (hmig : ∀ l ∈ ls, t.isMigrated l = true)
    (h1 : lockInd (Table.i1 cfg t.hashpower key) ∈ ls)
    (h2 : lockInd (Table.i2 cfg t.hashpower key) ∈ ls) : t.Locked cfg key :=
  ⟨hmig _ h1, hmig _ h2⟩

theorem good_moveNone (h : t.Inv cfg m) {r : CuckooRecord} (hle : hp ≤ t.hashpower)
    (hhome : Home hp (cfg.hashedKey u.key) r.bucket) (hslot : r.slot < slotPerBucket) :
    Good cfg m (Eq t.hashpower) (.uprase u) (t.moveNone cfg u hp r) := by
  have hbucket : r.bucket = Table.i1 cfg hp u.key ∨ r.bucket = Table.i2 cfg hp u.key := hhome
  rw [Table.moveNone, if_pos hbucket]
  refine good_withLocks h ?_ fun t' hinv hhp hmig => ?_
  · intro l hl
    rcases mem_lockTwoOrder.mp hl with rfl | rfl
    · exact h.lockInd_lt_of_le hle (Table.home_i1 cfg hp u.key).lt
    · exact h.lockInd_lt_of_le hle (Table.home_i2 cfg hp u.key).lt
  · subst hhp
    have hlocked : t'.Locked cfg u.key :=
      locked_of_mem hmig (mem_lockTwoOrder.mpr (.inl rfl)) (mem_lockTwoOrder.mpr (.inr rfl))
    rw [Table.get_eq hhome.lt, Option.bind_some]
    dsimp only
    by_cases hfree : (t'.buckets.cells (r.bucket, r.slot)).isNone
    · rw [if_pos hfree]
      exact good_insertMoved hinv hlocked hhome hslot (Option.isNone_iff_eq_none.mp hfree)
    · rw [if_neg hfree]
      exact good_again hinv u

theorem good_moveOne (h : t.Inv cfg m) {depth : Nat} (hle : hp ≤ t.hashpower)
    (hpath : PathOk cfg u.key hp path) (hsource : path[depth]? = some source)
    (htarget : path[depth + 1]? = some target) :
    Good cfg m (Eq t.hashpower) (.uprase u) (t.moveOne cfg u hp path depth source target) := by
  have hsourceOk := hpath.inRange source (List.mem_of_getElem? hsource)
  have htargetOk := hpath.inRange target (List.mem_of_getElem? htarget)
  have hleads := hpath.link depth source target hsource htarget
  rw [Table.moveOne]
  by_cases hdepth : depth = 0
  · -- the last element to move, with the locks of the insertion
    subst hdepth
    have hhome := hpath.first source hsource
    rw [if_pos rfl]
    refine good_withLocks h ?_ fun t' hinv hhp hmig => ?_
    · intro l hl
      rcases mem_lockThreeOrder.mp hl with rfl | rfl | rfl
      · exact h.lockInd_lt_of_le hle (Table.home_i1 cfg hp u.key).lt
      · exact h.lockInd_lt_of_le hle (Table.home_i2 cfg hp u.key).lt
      · exact h.lockInd_lt_of_le hle htargetOk.1
    · subst hhp
      have hlocked : t'.Locked cfg u.key := locked_of_mem hmig
        (mem_lockThreeOrder.mpr (.inl rfl)) (mem_lockThreeOrder.mpr (.inr (.inl rfl)))
      have hmigTarget := hmig _ (mem_lockThreeOrder.mpr (.inr (.inr rfl)))
      rcases shift_spec hinv hsourceOk.1 htargetOk hleads hmigTarget with
        hshift | ⟨t'', hshift, hinv', hhp', hmig', hfree⟩
      · rw [hshift]
        exact good_again hinv u
      · rw [hshift, Option.bind_some]
        dsimp only
        rw [if_pos rfl, ← hhp']
        refine good_insertMoved hinv' ⟨?_, ?_⟩ (by rw [hhp']; exact hhome) hsourceOk.2 hfree
        · rw [hhp', hmig']
          exact hlocked.first
        · rw [hhp', hmig']
          exact hlocked.second
  · rw [if_neg hdepth]
    refine good_withLocks h ?_ fun t' hinv hhp hmig => ?_
    · intro l hl
      rcases mem_lockTwoOrder.mp hl with rfl | rfl
      · exact h.lockInd_lt_of_le hle hsourceOk.1
      · exact h.lockInd_lt_of_le hle htargetOk.1
    · subst hhp
      have hmigTarget := hmig _ (mem_lockTwoOrder.mpr (.inr rfl))
      rcases shift_spec hinv hsourceOk.1 htargetOk hleads hmigTarget with
        hshift | ⟨t'', hshift, hinv', hhp', -, -⟩
      · rw [hshift]
        exact good_again hinv u
      · rw [hshift, Option.bind_some]
        dsimp only
        rw [if_neg hdepth, ← hhp']
        obtain ⟨hlt, -⟩ := List.getElem?_eq_some_iff.mp hsource
        exact good_on hinv' ⟨Nat.le_refl _, by rwa [hhp'], hlt⟩ rfl

theorem good_move (h : t.Inv cfg m) {depth : Nat}
    (hok : Pc.Ok cfg t.hashpower (.moving u hp path depth : Pc K V)) :
    Good cfg m (Eq t.hashpower) (.uprase u) (t.move cfg u hp path depth) := by
  obtain ⟨hle, hpath, hdepth⟩ := hok
  cases depth with
  | zero =>
    have hr : path[0]? = some path[0] := List.getElem?_eq_getElem hdepth
    rw [Table.move, hr, Option.bind_some]
    exact good_moveNone h hle (hpath.first _ hr) (hpath.inRange _ (List.mem_of_getElem? hr)).2
  | succ depth =>
    have hsource : path[depth]? = some path[depth] :=
      List.getElem?_eq_getElem (Nat.lt_of_succ_lt hdepth)
    have htarget : path[depth + 1]? = some path[depth + 1] := List.getElem?_eq_getElem hdepth
    rw [Table.move, hsource, Option.bind_some, htarget, Option.bind_some]
    exact good_moveOne h hle hpath hsource htarget

/-! ## Any step -/

theorem good_expand (h : t.Inv cfg m) (u : Uprase K V) (hp : Nat) :
    Good cfg m (Nat.le t.hashpower) (.uprase u) (t.expand cfg u hp) := by
  obtain ⟨t', hdouble, hinv, hcase⟩ := h.cuckooFastDouble hp
  have hhp : t.hashpower ≤ t'.hashpower := by
    rcases hcase with ⟨-, -, hgrown⟩ | ⟨-, rfl⟩
    · omega
    · exact Nat.le_refl _
  rw [Table.expand, hdouble]
  cases t.checkResizeValidity cfg hp (hp + 1) with
  | threw =>
    exact ⟨t', .answered .threw, m, rfl, hinv, hhp, trivial,
      .inr ⟨.threw, rfl, .inr ⟨rfl, rfl, u, rfl⟩⟩⟩
  | ok => exact ⟨t', .snapshot (.uprase u), m, rfl, hinv, hhp, trivial, .inl ⟨rfl, rfl⟩⟩
  | underExpansion =>
    exact ⟨t', .snapshot (.uprase u), m, rfl, hinv, hhp, trivial, .inl ⟨rfl, rfl⟩⟩

/-- In the middle of a call every step is as it should be, and all but one kind of them leave
the hashpower as it is. -/
theorem good_stays (h : t.Inv cfg m) (hok : pc.Ok cfg t.hashpower) (hphase : pc.phase = .called c)
    (hpc : ∀ u hp, pc ≠ .expanding u hp) : Good cfg m (Eq t.hashpower) c (t.advance cfg pc) := by
  cases pc with
  | idle => cases hphase
  | answered r => cases hphase
  | snapshot c' =>
    cases hphase
    exact good_on h (Nat.le_refl _) rfl
  | locking c' hp =>
    cases hphase
    refine good_withLocks h ?_ fun t' hinv hhp hmig => ?_
    · intro l hl
      rcases mem_lockTwoOrder.mp hl with rfl | rfl
      · exact h.lockInd_lt_of_le hok (Table.home_i1 cfg hp c.key).lt
      · exact h.lockInd_lt_of_le hok (Table.home_i2 cfg hp c.key).lt
    · subst hhp
      exact good_serve hinv (locked_of_mem hmig (mem_lockTwoOrder.mpr (.inl rfl))
        (mem_lockTwoOrder.mpr (.inr rfl)))
  | searching u hp q =>
    cases hphase
    exact good_search h hok.1 hok.2
  | walking u hp path bucket slots =>
    cases hphase
    exact good_walk h hok
  | moving u hp path depth =>
    cases hphase
    exact good_move h hok
  | expanding u hp => exact absurd rfl (hpc u hp)

/-- In the middle of a call every step is as it should be. -/
theorem good_advance (h : t.Inv cfg m) (hok : pc.Ok cfg t.hashpower)
    (hphase : pc.phase = .called c) : Good cfg m (Nat.le t.hashpower) c (t.advance cfg pc) := by
  by_cases hpc : ∀ u hp, pc ≠ .expanding u hp
  · obtain ⟨t', pc', m', heq, hinv, hhp, hrest⟩ := good_stays h hok hphase hpc
    exact ⟨t', pc', m', heq, hinv, Nat.le_of_eq hhp, hrest⟩
  · simp only [not_forall, not_not] at hpc
    obtain ⟨u, hp, rfl⟩ := hpc
    cases hphase
    exact good_expand h u hp

end LogDirect.Cuckoo
