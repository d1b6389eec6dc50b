import LogDirect.Cuckoo.Steps
import LogDirect.Lib.Bfs

/-!
# libcuckoo: the path that a search finds

The buckets of a table are a graph: a slot leads from its bucket to the alternate bucket of
its element. `slot_search` looks for the nearest bucket with an empty slot, `cuckoopath_search`
goes the way there once more, and `cuckoopath_move` moves the elements on it. If no other
thread comes between, the second and the third do what the first has planned: the way is
a shortest one, so it visits no bucket twice, and moving one element does not touch the
slot of another.
-/

namespace LogDirect.Cuckoo

open Lib Lib.Bfs

variable {K V : Type}

/-! ## The graph of the buckets -/

namespace Table

/-- From a bucket that has been migrated a slot leads to the alternate bucket of its
element. -/
def next (t : Table K V) (i slot : Nat) : Option Nat :=
  if t.isMigrated (lockInd i) ∧ slot < slotPerBucket then
    (t.buckets.cells (i, slot)).map fun e => altIndex t.hashpower e.partialKey i
  else none

/-- A bucket without an empty slot. -/
structure Full (t : Table K V) (i : Nat) : Prop where
  migrated : t.isMigrated (lockInd i) = true
  occupied : ∀ s, s < slotPerBucket → (t.buckets.cells (i, s)).isSome

variable {t t' : Table K V} {i s j : Nat}

theorem next_eq_some : t.next i s = some j ↔ t.isMigrated (lockInd i) = true ∧ s < slotPerBucket ∧
    ∃ e, t.buckets.cells (i, s) = some e ∧ j = altIndex t.hashpower e.partialKey i := by
  rw [next]
  by_cases h : t.isMigrated (lockInd i) = true ∧ s < slotPerBucket
  · rw [if_pos h, Option.map_eq_some_iff]
    constructor
    · rintro ⟨e, he, hj⟩
      exact ⟨h.1, h.2, e, he, hj.symm⟩
    · rintro ⟨-, -, e, he, hj⟩
      exact ⟨e, he, hj.symm⟩
  · rw [if_neg h]
    constructor
    · intro hnone
      cases hnone
    · rintro ⟨hmig, hs, -⟩
      exact absurd ⟨hmig, hs⟩ h

/-- Taking locks does not change the steps out of a bucket that has been migrated. -/
theorem Kept.next (h : t.Kept t') (hi : t.isMigrated (lockInd i) = true) :
    t'.next i s = t.next i s := by
  rw [Table.next, Table.next, hi, h.migrated _ hi, h.cells i s hi, h.hashpower]

theorem Kept.next_some (h : t.Kept t') (hnext : t.next i s = some j) : t'.next i s = some j := by
  rw [h.next (next_eq_some.mp hnext).1]
  exact hnext

theorem Kept.full (h : t.Kept t') (hi : t.Full i) : t'.Full i where
  migrated := h.migrated _ hi.migrated
  occupied s hs := by
    rw [h.cells i s hi.migrated]
    exact hi.occupied s hs

end Table

/-! ## Path codes -/

theorem pathSlots_append (n : Nat) : ∀ (code : Nat) (slots : List Nat),
    pathSlots n code slots = ((pathSlots n code []).1 ++ slots, (pathSlots n code []).2) := by
  induction n with
  | zero =>
    intro code slots
    rfl
  | succ n ih =>
    intro code slots
    rw [pathSlots, pathSlots, ih _ (code % slotPerBucket :: slots), ih _ [code % slotPerBucket],
      List.append_assoc, List.singleton_append]

variable {hp s a bucket c : Nat} {x : BSlot} {path : List CuckooRecord}

/-- The code of a record with one more slot. -/
theorem BSlot.Ok.pathSlots_extend {slot : Nat} (h : x.Ok hp) (hslot : slot < slotPerBucket) :
    pathSlots (x.depth + 1) (x.extend slot) [] =
      ((pathSlots x.depth x.pathcode []).1 ++ [slot], (pathSlots x.depth x.pathcode []).2) := by
  have hpos : 0 < slotPerBucket := by decide
  rw [pathSlots, (h.extend hslot).1, Nat.add_comm, Nat.add_mul_div_right _ _ hpos,
    Nat.div_eq_of_lt hslot, Nat.zero_add, Nat.add_mul_mod_self_right, Nat.mod_eq_of_lt hslot,
    pathSlots_append]

/-- What is left of a code says with which of the two buckets the path begins. -/
def Begins (cfg : Config K) (hp : Nat) (key : K) (rest i : Nat) : Prop :=
  (rest = 0 ∧ i = Table.i1 cfg hp key) ∨ (rest = 1 ∧ i = Table.i2 cfg hp key)

theorem Begins.home {cfg : Config K} {rest i : Nat} {key : K} (h : Begins cfg hp key rest i) :
    Home hp (cfg.hashedKey key) i := by
  rcases h with ⟨-, rfl⟩ | ⟨-, rfl⟩
  · exact Table.home_i1 cfg hp key
  · exact Table.home_i2 cfg hp key

/-- The path code of a record leads to its bucket. -/
def Coded (cfg : Config K) (t : Table K V) (key : K) (x : BSlot) : Prop :=
  ∃ i, Begins cfg t.hashpower key (pathSlots x.depth x.pathcode []).2 i ∧
    follow t.next i (pathSlots x.depth x.pathcode []).1 = some x.bucket

/-! ## One bucket -/

/-- The slots of one bucket, in the order in which `slot_search` looks at them. -/
def BSlot.slotAt (x : BSlot) (i : Nat) : Nat := (x.pathcode % slotPerBucket + i) % slotPerBucket

theorem BSlot.slotAt_surj (x : BSlot) (hs : s < slotPerBucket) :
    ∃ i ∈ List.range slotPerBucket, x.slotAt i = s := by
  refine ⟨(s + slotPerBucket - x.pathcode % slotPerBucket) % slotPerBucket, ?_, ?_⟩
  · exact List.mem_range.mpr (Nat.mod_lt _ (by decide))
  · rw [slotAt, slotPerBucket]
    rw [slotPerBucket] at hs
    omega

/-- What is left to do for a search: each record that is taken out makes it less. -/
def BQueue.left (q : BQueue) : Nat := q.slots.length + (maxCuckooCount - q.last)

/-- A record that is put into the queue by the scan of another one. -/
def BSlot.child (hp : Nat) (x : BSlot) (s : Nat) (e : Entry K V) : BSlot :=
  ⟨altIndex hp e.partialKey x.bucket, x.extend s, x.depth + 1⟩

/-- A bucket without an empty slot: its elements have been put into the queue. -/
theorem scanSlots_full {b : Bucket K V} (is : List Nat) :
    ∀ {q q' : BQueue}, q.last ≤ maxCuckooCount → scanSlots hp b x is q = some (.inr q') →
      q'.left = q.left ∧ (∀ i ∈ is, (b (x.slotAt i)).isSome) ∧
      ∃ ys, q'.slots = q.slots ++ ys ∧
        (∀ y ∈ ys, ∃ s e, s < slotPerBucket ∧ b s = some e ∧ y = x.child hp s e) ∧
        (x.depth < maxBfsPathLen - 1 →
          ∀ i ∈ is, ∀ e, b (x.slotAt i) = some e → x.child hp (x.slotAt i) e ∈ ys) := by
  induction is with
  | nil =>
    intro q q' _ h
    cases h
    exact ⟨rfl, by simp, [], by simp, by simp, by simp⟩
  | cons i is ih =>
    intro q q' hlast h
    have hslot : x.slotAt i < slotPerBucket := Nat.mod_lt _ (by decide)
    have hdef : (x.pathcode % slotPerBucket + i) % slotPerBucket = x.slotAt i := rfl
    rw [scanSlots, hdef] at h
    cases hcell : b (x.slotAt i) with
    | none =>
      rw [hcell] at h
      cases h
    | some e =>
      rw [hcell] at h
      dsimp only at h
      by_cases hdepth : x.depth < maxBfsPathLen - 1
      · rw [if_pos hdepth, BQueue.enqueue] at h
        by_cases hroom : q.last = maxCuckooCount
        · rw [if_pos hroom] at h
          cases h
        · rw [if_neg hroom, Option.bind_some] at h
          obtain ⟨hleft, hocc, ys, hslots, hys, hall⟩ := ih (by dsimp only; omega) h
          refine ⟨?_, ?_, x.child hp (x.slotAt i) e :: ys, ?_, ?_, ?_⟩
          · rw [hleft, BQueue.left, BQueue.left, List.length_append, List.length_singleton]
            dsimp only
            omega
          · exact List.forall_mem_cons.mpr ⟨by rw [hcell]; rfl, hocc⟩
          · rw [hslots, List.append_assoc]
            rfl
          · exact List.forall_mem_cons.mpr ⟨⟨x.slotAt i, e, hslot, hcell, rfl⟩, hys⟩
          · intro _ i' hi' e' he'
            rcases List.mem_cons.mp hi' with rfl | hi'
            · rw [hcell] at he'
              cases he'
              exact List.mem_cons_self
            · exact List.mem_cons_of_mem _ (hall hdepth i' hi' e' he')
      · rw [if_neg hdepth] at h
        obtain ⟨hleft, hocc, ys, hslots, hys, -⟩ := ih hlast h
        exact ⟨hleft, List.forall_mem_cons.mpr ⟨by rw [hcell]; rfl, hocc⟩, ys, hslots, hys,
          fun hlt => absurd hlt hdepth⟩

/-! ## The search -/

/-- A search that no other thread has disturbed. -/
structure Fresh (cfg : Config K) (t : Table K V) (key : K) (q : BQueue) : Prop where
  ok : q.Ok t.hashpower
  covers : ∃ done, Covers t.next (Home t.hashpower (cfg.hashedKey key)) (maxBfsPathLen - 1) done
    (q.slots.map fun x => (x.depth, x.bucket)) ∧ ∀ d i, done d i → t.Full i
  coded : ∀ x ∈ q.slots, Coded cfg t key x

variable {cfg : Config K} {t t' : Table K V} {key : K}

theorem fresh_start (cfg : Config K) (t : Table K V) (key : K) :
    Fresh cfg t key (.start (Table.i1 cfg t.hashpower key) (Table.i2 cfg t.hashpower key)) where
  ok := BQueue.ok_start (Table.home_i1 cfg _ key).lt (Table.home_i2 cfg _ key).lt
  covers := by
    refine ⟨fun _ _ => False, covers_start ?_ ?_, fun _ _ hd => hd.elim⟩
    · rintro a (rfl | rfl)
      · exact List.mem_cons_self
      · exact List.mem_cons_of_mem _ List.mem_cons_self
    · intro x hx
      rcases List.mem_pair.mp hx with rfl | rfl
      · rfl
      · rfl
  coded x hx := by
    rcases List.mem_pair.mp hx with rfl | rfl
    · exact ⟨_, .inl ⟨rfl, rfl⟩, follow_nil _⟩
    · exact ⟨_, .inr ⟨rfl, rfl⟩, follow_nil _⟩

theorem Coded.kept (h : Coded cfg t key x) (hkept : t.Kept t') : Coded cfg t' key x := by
  obtain ⟨i, hbegins, hfollow⟩ := h
  exact ⟨i, by rwa [hkept.hashpower], follow_mono (fun _ _ _ => hkept.next_some) hfollow⟩

/-- Taking a lock does not disturb a search. -/
theorem Fresh.kept {q : BQueue} (h : Fresh cfg t key q) (hkept : t.Kept t') :
    Fresh cfg t' key q where
  ok := by
    rw [hkept.hashpower]
    exact h.ok
  covers := by
    obtain ⟨done, hcovers, hfull⟩ := h.covers
    refine ⟨done, ?_, fun d i hd => hkept.full (hfull d i hd)⟩
    rw [hkept.hashpower]
    exact hcovers.change fun d i hd l => hkept.next (hfull d i hd).migrated
  coded x hx := (h.coded x hx).kept hkept

/-- The bucket of the first record has no empty slot. -/
theorem Fresh.scan {rest ys : List BSlot} {last : Nat} {q' : BQueue}
    (h : Fresh cfg t key ⟨x :: rest, last⟩) (hok : q'.Ok t.hashpower) (hfull : t.Full x.bucket)
    (hslots : q'.slots = rest ++ ys)
    (hys : ∀ y ∈ ys, ∃ s e, s < slotPerBucket ∧ t.buckets.cells (x.bucket, s) = some e ∧
      y = x.child t.hashpower s e) (hall : x.depth < maxBfsPathLen - 1 → ∀ s e, s < slotPerBucket →
      t.buckets.cells (x.bucket, s) = some e → x.child t.hashpower s e ∈ ys) :
    Fresh cfg t key q' where
  ok := hok
  covers := by
    obtain ⟨done, hcovers, hdone⟩ := h.covers
    refine ⟨fun d i => done d i ∨ (d = x.depth ∧ i = x.bucket), ?_, ?_⟩
    · rw [hslots, List.map_append]
      refine hcovers.scan ?_ ?_
      · intro y hy
        obtain ⟨y, hmem, rfl⟩ := List.mem_map.mp hy
        obtain ⟨s, e, -, -, rfl⟩ := hys y hmem
        rfl
      · intro hlt s j hnext
        obtain ⟨-, hs, e, he, rfl⟩ := Table.next_eq_some.mp hnext
        exact List.mem_map.mpr ⟨_, hall hlt s e hs he, rfl⟩
    · rintro d i (hd | ⟨-, rfl⟩)
      · exact hdone d i hd
      · exact hfull
  coded y hy := by
    rw [hslots] at hy
    rcases List.mem_append.mp hy with hy | hy
    · exact h.coded y (List.mem_cons_of_mem x hy)
    · obtain ⟨s, e, hs, he, rfl⟩ := hys y hy
      obtain ⟨i, hbegins, hfollow⟩ := h.coded x List.mem_cons_self
      have hcode := (h.ok.items x List.mem_cons_self).pathSlots_extend hs
      refine ⟨i, ?_, ?_⟩
      · dsimp only [BSlot.child]
        rw [hcode]
        exact hbegins
      · dsimp only [BSlot.child]
        rw [hcode, follow_snoc, hfollow]
        exact Table.next_eq_some.mpr ⟨hfull.migrated, hs, e, he, rfl⟩

/-! ## The way -/

/-- What a record of a path says is still so. -/
structure Recorded (cfg : Config K) (t : Table K V) (r : CuckooRecord) : Prop where
  migrated : t.isMigrated (lockInd r.bucket) = true
  element : ∃ e, t.buckets.cells (r.bucket, r.slot) = some e ∧ cfg.hashedKey e.key = r.hv

/-- A shortest way from the bucket `a`, recorded up to `bucket`. The slots `ss` lead on to
`c`, where the slot `s` is empty. -/
structure Way (cfg : Config K) (t : Table K V) (key : K) (a : Nat) (path : List CuckooRecord)
    (bucket : Nat) (ss : List Nat) (s c : Nat) : Prop where
  first : Home t.hashpower (cfg.hashedKey key) a
  behind : follow t.next a (path.map CuckooRecord.slot) = some bucket
  ahead : follow t.next bucket ss = some c
  migrated : t.isMigrated (lockInd c) = true
  slot : s < slotPerBucket
  empty : t.buckets.cells (c, s) = none
  visited : ∀ j r, path[j]? = some r →
    follow t.next a ((path.map CuckooRecord.slot).take j) = some r.bucket
  recorded : ∀ r ∈ path, Recorded cfg t r
  shortest : ∀ a', Home t.hashpower (cfg.hashedKey key) a' → ∀ ls c',
    ls.length < path.length + ss.length → follow t.next a' ls = some c' → t.Full c'

/-- The first record of the queue has an empty slot. -/
theorem Fresh.way {rest : List BSlot} {last : Nat} (h : Fresh cfg t key ⟨x :: rest, last⟩)
    (hmig : t.isMigrated (lockInd x.bucket) = true) (hs : s < slotPerBucket)
    (hempty : t.buckets.cells (x.bucket, s) = none) :
    ∃ a, Begins cfg t.hashpower key (pathSlots x.depth x.pathcode []).2 a ∧
      Way cfg t key a [] a (pathSlots x.depth x.pathcode []).1 s x.bucket := by
  obtain ⟨a, hbegins, hfollow⟩ := h.coded x List.mem_cons_self
  have hlen := (pathSlots_spec x.depth x.pathcode [] (by simp)).2.1
  have hdepth := (h.ok.items x List.mem_cons_self).depth
  obtain ⟨done, hcovers, hfull⟩ := h.covers
  refine ⟨a, hbegins, hbegins.home, follow_nil a, hfollow, hmig, hs, hempty, ?_, ?_, ?_⟩
  · intro j r hr
    cases hr
  · intro r hr
    cases hr
  · intro a' ha' ls c' hlt hls
    rw [hlen, List.length_nil, List.length_nil, Nat.zero_add, Nat.add_zero] at hlt
    exact hfull _ _ (hcovers.within (Nat.le_sub_one_of_lt hdepth) ha' hls hlt)

/-- The bucket that has been reached, and where each record before it is. -/
theorem Way.visited_snoc {ss : List Nat} (h : Way cfg t key a path bucket ss s c) (r : CuckooRecord)
    (hr : r.bucket = bucket) {j : Nat} {r' : CuckooRecord} (hj : (path ++ [r])[j]? = some r') :
    j ≤ path.length ∧ follow t.next a ((path.map CuckooRecord.slot).take j) = some r'.bucket := by
  rcases Nat.lt_trichotomy j path.length with hlt | rfl | hgt
  · rw [List.getElem?_append_left hlt] at hj
    exact ⟨Nat.le_of_lt hlt, h.visited j r' hj⟩
  · rw [List.getElem?_append_right (Nat.le_refl _), Nat.sub_self] at hj
    cases hj
    refine ⟨Nat.le_refl _, ?_⟩
    rw [List.take_of_length_le (by rw [List.length_map]), h.behind, hr]
  · rw [List.getElem?_eq_none (by rw [List.length_append, List.length_singleton]; omega)] at hj
    cases hj

/-- One more bucket is recorded. -/
theorem Way.snoc {s' : Nat} {ss : List Nat} (h : Way cfg t key a path bucket (s' :: ss) s c) :
    t.isMigrated (lockInd bucket) = true ∧ ∃ e, t.buckets.cells (bucket, s') = some e ∧
      Way cfg t key a (path ++ [⟨bucket, s', cfg.hashedKey e.key⟩])
        (altIndex t.hashpower e.partialKey bucket) ss s c := by
  have hahead := h.ahead
  rw [follow_cons] at hahead
  obtain ⟨b, hnext, hrest⟩ := Option.bind_eq_some_iff.mp hahead
  obtain ⟨hmig, -, e, he, rfl⟩ := Table.next_eq_some.mp hnext
  refine ⟨hmig, e, he, h.first, ?_, hrest, h.migrated, h.slot, h.empty, ?_, ?_, ?_⟩
  · rw [List.map_append, List.map_singleton, follow_snoc, h.behind]
    exact hnext
  · intro j r hr
    obtain ⟨hj, hvisited⟩ := h.visited_snoc _ rfl hr
    rw [List.map_append, List.take_append_of_le_length (by rwa [List.length_map])]
    exact hvisited
  · intro r hr
    rcases List.mem_append.mp hr with hr | hr
    · exact h.recorded r hr
    · rw [List.mem_singleton.mp hr]
      exact ⟨hmig, e, he, rfl⟩
  · intro a' ha' ls c' hlt
    refine h.shortest a' ha' ls c' ?_
    rw [List.length_append, List.length_singleton] at hlt
    rw [List.length_cons]
    omega

/-! ## The moves -/

/-- The elements before `depth` are where the path says, the slot at `depth` is empty, and
no bucket comes twice up to there. -/
structure Ready (cfg : Config K) (t : Table K V) (path : List CuckooRecord) (depth : Nat) :
    Prop where
  before : ∀ j r, j < depth → path[j]? = some r → Recorded cfg t r
  migrated : ∀ r, path[depth]? = some r → t.isMigrated (lockInd r.bucket) = true
  empty : ∀ r, path[depth]? = some r → t.buckets.cells (r.bucket, r.slot) = none
  apart : ∀ i j r r', i < j → j ≤ depth → path[i]? = some r → path[j]? = some r' →
    r.bucket ≠ r'.bucket

/-- All of the way has been recorded. -/
theorem Way.ready (hv : HashValue) (h : Way cfg t key a path bucket [] s c) :
    t.isMigrated (lockInd bucket) = true ∧ t.buckets.cells (bucket, s) = none ∧
      Ready cfg t (path ++ [⟨bucket, s, hv⟩]) path.length := by
  have hc : bucket = c := Option.some.inj h.ahead
  have hmig : t.isMigrated (lockInd bucket) = true := by
    rw [hc]
    exact h.migrated
  have hempty : t.buckets.cells (bucket, s) = none := by
    rw [hc]
    exact h.empty
  have hlast : ∀ r, (path ++ [(⟨bucket, s, hv⟩ : CuckooRecord)])[path.length]? = some r →
      r = ⟨bucket, s, hv⟩ := by
    intro r hr
    rw [List.getElem?_append_right (Nat.le_refl _), Nat.sub_self] at hr
    exact (Option.some.inj hr).symm
  refine ⟨hmig, hempty, ?_, ?_, ?_, ?_⟩
  · intro j r hj hr
    rw [List.getElem?_append_left hj] at hr
    exact h.recorded r (List.mem_of_getElem? hr)
  · intro r hr
    rw [hlast r hr]
    exact hmig
  · intro r hr
    rw [hlast r hr]
    exact hempty
  · intro i j r r' hij hj hr hr' heq
    have hi := (h.visited_snoc _ rfl hr).2
    have hj' := (h.visited_snoc _ rfl hr').2
    have hgoal : ¬ t.Full bucket := fun hfull => by
      have hsome := hfull.occupied s h.slot
      rw [hempty] at hsome
      cases hsome
    refine distinct (fun i => ¬ t.Full i) h.first h.behind hgoal (fun a' ha' ls c' hlt hls => ?_)
      hij (by rwa [List.length_map]) (by rw [hi, hj', heq])
    rw [List.length_map] at hlt
    exact not_not_intro (h.shortest a' ha' ls c' hlt hls)

theorem Recorded.kept {r : CuckooRecord} (h : Recorded cfg t r) (hkept : t.Kept t') :
    Recorded cfg t' r where
  migrated := hkept.migrated _ h.migrated
  element := by
    obtain ⟨e, he, hhv⟩ := h.element
    exact ⟨e, (hkept.cells _ _ h.migrated).trans he, hhv⟩

theorem Ready.kept {depth : Nat} (h : Ready cfg t path depth) (hkept : t.Kept t') :
    Ready cfg t' path depth where
  before j r hj hr := (h.before j r hj hr).kept hkept
  migrated r hr := hkept.migrated _ (h.migrated r hr)
  empty r hr := (hkept.cells _ _ (h.migrated r hr)).trans (h.empty r hr)
  apart := h.apart

end LogDirect.Cuckoo
