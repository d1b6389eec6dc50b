import LogDirect.Lib.History
import LogDirect.Lib.Inverse
import Mathlib.Algebra.Group.Nat.Defs
import Mathlib.Data.Finset.Card

/-!
# The set the benchmark draws from

`cpuaccess/randset.h`. A `RandSet` numbers its members: `to_index` is meant to lead from a
member to its number and `to_key` back, and a removed member's number goes to the one with
the last number. The types of the two maps are the wrong way round, though: `to_index` has
`int` keys and `to_key` has `int` values, so what is kept of a member is its conversion to
`int`. The set is one exactly for members that the conversion back gives again.
-/

namespace LogDirect.CpuAccess

open Lib

/-- The implicit conversions between the template's `T` and `int`. -/
class IntConv (T : Type) where
  toInt : T → BitVec 32
  ofInt : BitVec 32 → T
  -- an `int` comes back from a `T` as it was
  toInt_ofInt : ∀ i, toInt (ofInt i) = i

export IntConv (toInt ofInt toInt_ofInt)

theorem setWidth_signExtend (i : BitVec 32) : (i.signExtend 64).setWidth 32 = i := by
  ext j hj
  have hj' : j < 64 := by omega
  rw [BitVec.getElem_setWidth, BitVec.getLsbD_signExtend]
  simp [hj, hj']

/-- `uint64_t`: an `int` is sign-extended, the other way the low half is kept. -/
instance : IntConv (BitVec 64) where
  toInt t := t.setWidth 32
  ofInt i := i.signExtend 64
  toInt_ofInt := setWidth_signExtend

/-- An `int` that is not negative. -/
def int (n : Nat) : BitVec 32 := BitVec.ofNat 32 n

theorem int_inj {m n : Nat} (hm : m < 2 ^ 31) (hn : n < 2 ^ 31) (h : int m = int n) : m = n := by
  have h := congrArg BitVec.toNat h
  rw [int, int, BitVec.toNat_ofNat, BitVec.toNat_ofNat] at h
  omega

/-- `INT32_MAX + 1`, which no `int` reaches. -/
def intBound : Nat := 2 ^ 31

/-- `insert` of an `unordered_map`, which leaves a key that is there alone. -/
def emplace {κ ν : Type} [DecidableEq κ] (m : κ → Option ν) (k : κ) (v : ν) : κ → Option ν :=
  if (m k).isSome then m else Function.update m k (some v)

theorem emplace_of_none {κ ν : Type} [DecidableEq κ] {m : κ → Option ν} {k : κ} (h : m k = none)
    (v : ν) : emplace m k v = Function.update m k (some v) := by
  rw [emplace, h]
  rfl

/-- `RandSet`: `unordered_map<T, int> to_key` and `unordered_map<int, T> to_index`. -/
structure RandSet (T : Type) where
  num : Nat
  toKey : T → Option (BitVec 32)
  toIndex : BitVec 32 → Option T
  num_lt : num < intBound

namespace RandSet

variable {T : Type}

theorem pred_lt (s : RandSet T) : s.num - 1 < intBound :=
  Nat.lt_of_le_of_lt (Nat.sub_le ..) s.num_lt

/-- `RandSet()` -/
def empty : RandSet T := ⟨0, fun _ => none, fun _ => none, Nat.two_pow_pos 31⟩

/-- `size` -/
def size (s : RandSet T) : Nat := s.num

variable [IntConv T]

/-- `get` for what `dist(gen)` returns; `none` is a division by zero or the end of the map. -/
def get (s : RandSet T) (draw : Nat) : Option T :=
  if s.num = 0 then none else (s.toKey (ofInt (int (draw % s.num)))).map ofInt

variable [DecidableEq T]

/-- `insert`; `none` is an overflow of `num`. -/
def insert (s : RandSet T) (t : T) : Option (Bool × RandSet T) :=
  match s.toIndex (toInt t) with
  | none =>
      if h : s.num + 1 < intBound then
        some (true, ⟨s.num + 1, emplace s.toKey (ofInt (int s.num)) (toInt t),
          emplace s.toIndex (toInt t) (ofInt (int s.num)), h⟩)
      else none
  | some _ => some (false, s)

/-- `remove`. `to_key[num - 1]` would add a key that is not there; it is erased again. -/
def remove (s : RandSet T) (t : T) : Bool × RandSet T :=
  match s.toIndex (toInt t) with
  | none => (false, s)
  | some it =>
      if s.num > 1 ∧ it ≠ ofInt (int (s.num - 1)) then
        let curIdx := toInt it
        let lastOne : T := ofInt ((s.toKey (ofInt (int (s.num - 1)))).getD 0)
        let toKey := Function.update s.toKey (ofInt curIdx) (some (toInt lastOne))
        let toIndex := Function.update s.toIndex (toInt lastOne) (some (ofInt curIdx))
        (true, ⟨s.num - 1, Function.update toKey (ofInt (int (s.num - 1))) none,
          Function.update toIndex (toInt t) none, s.pred_lt⟩)
      else
        (true, ⟨s.num - 1, Function.update s.toKey it none,
          Function.update s.toIndex (toInt t) none, s.pred_lt⟩)

end RandSet

/-! ## The set it stands for -/

variable {T : Type} [IntConv T]

theorem ofInt_inj {i j : BitVec 32} (h : (ofInt i : T) = ofInt j) : i = j := by
  rw [← toInt_ofInt (T := T) i, h, toInt_ofInt]

/-- The conversion to `int` loses nothing. -/
def Stored (t : T) : Prop := ofInt (toInt t) = t

namespace RandSet

variable {s s' : RandSet T} {S : Finset T} {t : T}

/-- The maps are inverse to each other, one leading from the members and the other from the
numbers below `num`. -/
structure Numbered (s : RandSet T) (S : Finset T) : Prop where
  size : s.size = S.card
  inverse : Inverse s.toIndex s.toKey
  members : ∀ t, t ∈ S ↔ ∃ i, (s.toIndex i).isSome ∧ ofInt i = t
  numbers : ∀ k, (s.toKey k).isSome ↔ ∃ n < s.num, k = ofInt (int n)

/-- `s` is the set `S`, also to whoever draws from it. -/
structure ActsAs (s : RandSet T) (S : Finset T) : Prop extends Numbered s S where
  get : S.Nonempty → ∀ draw < intBound, ∃ t ∈ S, s.get draw = some t

theorem Numbered.actsAs (h : s.Numbered S) : s.ActsAs S := by
  refine ⟨h, ?_⟩
  intro hne draw _
  have hpos : s.num ≠ 0 := by
    have hsize : s.num = S.card := h.size
    have := hne.card_pos
    omega
  have hdraw : draw % s.num < s.num := Nat.mod_lt _ (Nat.pos_of_ne_zero hpos)
  obtain ⟨i, hi⟩ := Option.isSome_iff_exists.mp ((h.numbers _).mpr ⟨_, hdraw, rfl⟩)
  refine ⟨ofInt i, (h.members _).mpr ⟨i, ?_, rfl⟩, ?_⟩
  · rw [(h.inverse _ _).mpr hi]
    rfl
  · rw [RandSet.get, if_neg hpos, hi]
    rfl

theorem empty_numbered : (empty : RandSet T).Numbered ∅ := by
  refine ⟨rfl, .empty, ?_, ?_⟩
  · intro t
    simp [empty]
  · intro k
    simp [empty]

/-- A member is found under its conversion, which loses nothing. -/
theorem Numbered.mem_iff (h : s.Numbered S) : t ∈ S ↔ (s.toIndex (toInt t)).isSome ∧ Stored t := by
  rw [h.members]
  constructor
  · rintro ⟨i, hi, rfl⟩
    rw [Stored, toInt_ofInt]
    exact ⟨hi, rfl⟩
  · rintro ⟨hi, ht⟩
    exact ⟨toInt t, hi, ht⟩

theorem Numbered.notMem (h : s.Numbered S) (hidx : s.toIndex (toInt t) = none) : t ∉ S := by
  rw [h.mem_iff, hidx]
  simp

/-- The next number is free. -/
theorem Numbered.next_free (h : s.Numbered S) : s.toKey (ofInt (int s.num)) = none := by
  rw [← Option.not_isSome_iff_eq_none, h.numbers]
  rintro ⟨n, hn, heq⟩
  exact Nat.ne_of_gt hn (int_inj s.num_lt (hn.trans s.num_lt) (ofInt_inj heq))

variable [DecidableEq T]

theorem insert_of_none (h : s.Numbered S) (hfree : s.toIndex (toInt t) = none)
    (hroom : s.num + 1 < intBound) : s.insert t = some (true, ⟨s.num + 1,
      Function.update s.toKey (ofInt (int s.num)) (some (toInt t)),
      Function.update s.toIndex (toInt t) (some (ofInt (int s.num))), hroom⟩) := by
  unfold insert
  rw [hfree]
  simp only [dif_pos hroom, emplace_of_none h.next_free, emplace_of_none hfree]

/-- A new member gets the next number. -/
theorem Numbered.grow (h : s.Numbered S) (ht : Stored t) (hfree : s.toIndex (toInt t) = none)
    (hnum : s'.num = s.num + 1)
    (hkey : s'.toKey = Function.update s.toKey (ofInt (int s.num)) (some (toInt t)))
    (hindex : s'.toIndex = Function.update s.toIndex (toInt t) (some (ofInt (int s.num)))) :
    s'.Numbered (Insert.insert t S) := by
  have hmem : t ∉ S := by
    rw [h.mem_iff, hfree]
    simp
  refine ⟨?_, ?_, ?_, ?_⟩
  · rw [Finset.card_insert_of_notMem hmem, ← h.size]
    exact hnum
  · rw [hkey, hindex]
    exact h.inverse.add hfree h.next_free
  · intro u
    rw [Finset.mem_insert, h.members, hindex]
    simp only [isSome_update_some]
    constructor
    · rintro (rfl | ⟨i, hi, rfl⟩)
      · exact ⟨toInt u, .inl rfl, ht⟩
      · exact ⟨i, .inr hi, rfl⟩
    · rintro ⟨i, rfl | hi, rfl⟩
      · exact .inl ht
      · exact .inr ⟨i, hi, rfl⟩
  · intro k
    rw [hkey, hnum, isSome_update_some, h.numbers]
    constructor
    · rintro (rfl | ⟨n, hn, rfl⟩)
      · exact ⟨s.num, Nat.lt_succ_self _, rfl⟩
      · exact ⟨n, Nat.lt_succ_of_lt hn, rfl⟩
    · rintro ⟨n, hn, rfl⟩
      rcases Nat.lt_succ_iff_lt_or_eq.mp hn with hn | rfl
      · exact .inr ⟨n, hn, rfl⟩
      · exact .inl rfl

/-- A member goes, and so does the last number. -/
theorem Numbered.shrink (h : s.Numbered S) (ht : Stored t) (hmem : t ∈ S)
    (hnum : s'.num = s.num - 1) (hinverse : Inverse s'.toIndex s'.toKey)
    (hindex : ∀ i, (s'.toIndex i).isSome ↔ i ≠ toInt t ∧ (s.toIndex i).isSome)
    (hkey : ∀ k, (s'.toKey k).isSome ↔ k ≠ ofInt (int (s.num - 1)) ∧ (s.toKey k).isSome) :
    s'.Numbered (S.erase t) := by
  have hsize : s.num = S.card := h.size
  have hpos := Finset.card_pos.mpr ⟨t, hmem⟩
  refine ⟨?_, hinverse, ?_, ?_⟩
  · rw [Finset.card_erase_of_mem hmem, ← hsize]
    exact hnum
  · intro u
    rw [Finset.mem_erase, h.members]
    simp only [hindex]
    constructor
    · rintro ⟨hut, i, hi, rfl⟩
      refine ⟨i, ⟨?_, hi⟩, rfl⟩
      rintro rfl
      exact hut ht
    · rintro ⟨i, ⟨hit, hi⟩, rfl⟩
      refine ⟨?_, i, hi, rfl⟩
      rintro rfl
      exact hit (toInt_ofInt i).symm
  · intro k
    rw [hkey, h.numbers, hnum]
    constructor
    · rintro ⟨hk, n, hn, rfl⟩
      have hlast : n ≠ s.num - 1 := by
        rintro rfl
        exact hk rfl
      exact ⟨n, by omega, rfl⟩
    · rintro ⟨n, hn, rfl⟩
      refine ⟨?_, n, by omega, rfl⟩
      intro heq
      have hn' := int_inj ((by omega : n < s.num).trans s.num_lt) s.pred_lt (ofInt_inj heq)
      omega

end RandSet

/-! ## Calls, on the set and on a finite set -/

inductive SetOp (T : Type)
  | insert (t : T)
  | remove (t : T)

variable [DecidableEq T]

def RandSet.exec (s : RandSet T) : SetOp T → Option (Bool × RandSet T)
  | .insert t => s.insert t
  | .remove t => some (s.remove t)

namespace SetOp

/-- What the call returns on a set. -/
def answer (S : Finset T) : SetOp T → Bool
  | insert t => decide (t ∉ S)
  | remove t => decide (t ∈ S)

/-- The set behind the call. -/
def next (S : Finset T) : SetOp T → Finset T
  | insert t => Insert.insert t S
  | remove t => S.erase t

/-- The value survives its conversion to `int`, and there is a number left for it; or no
member is taken for it. -/
def Keeps (S : Finset T) : SetOp T → Prop
  | insert t => Stored t ∧ (t ∈ S ∨ S.card + 1 < intBound)
  | remove t => Stored t ∨ ofInt (toInt t) ∉ S

end SetOp

namespace RandSet

variable {s s' : RandSet T} {S : Finset T} {t : T}

theorem Numbered.insert (h : s.Numbered S) (ht : Stored t) (hroom : t ∈ S ∨ S.card + 1 < intBound) :
    ∃ s', s.insert t = some (decide (t ∉ S), s') ∧ s'.Numbered (Insert.insert t S) := by
  cases hidx : s.toIndex (toInt t) with
  | none =>
    have hmem := h.notMem hidx
    have hsize : s.num = S.card := h.size
    have hroom : s.num + 1 < intBound := hsize ▸ hroom.resolve_left hmem
    rw [decide_eq_true hmem, insert_of_none h hidx hroom]
    exact ⟨_, rfl, h.grow ht hidx rfl rfl rfl⟩
  | some k =>
    have hmem : t ∈ S := by
      rw [h.mem_iff, hidx]
      exact ⟨rfl, ht⟩
    refine ⟨s, ?_, ?_⟩
    · unfold RandSet.insert
      rw [hidx, decide_eq_false (not_not.mpr hmem)]
    · rwa [Finset.insert_eq_of_mem hmem]

/-- The member with the last number is removed, or it takes the number of the one that is. -/
theorem Numbered.remove (h : s.Numbered S) (ht : Stored t) (hmem : t ∈ S) :
    (s.remove t).1 = true ∧ (s.remove t).2.Numbered (S.erase t) := by
  obtain ⟨k, hidx⟩ := Option.isSome_iff_exists.mp (h.mem_iff.mp hmem).1
  have hback := (h.inverse _ _).mp hidx
  obtain ⟨n, hn, rfl⟩ := (h.numbers k).mp (by rw [hback]; rfl)
  by_cases hlast : n = s.num - 1
  · subst hlast
    have hbranch : ¬ (s.num > 1 ∧
        (ofInt (int (s.num - 1)) : T) ≠ ofInt (int (s.num - 1))) := fun h => h.2 rfl
    unfold RandSet.remove
    rw [hidx]
    simp only [if_neg hbranch]
    refine ⟨trivial, h.shrink ht hmem rfl (h.inverse.remove hidx) ?_ ?_⟩
    · exact isSome_update_none _ _
    · exact isSome_update_none _ _
  · have hne : (ofInt (int n) : T) ≠ ofInt (int (s.num - 1)) := fun heq =>
      hlast (int_inj (hn.trans s.num_lt) s.pred_lt (ofInt_inj heq))
    have hbranch : s.num > 1 ∧ (ofInt (int n) : T) ≠ ofInt (int (s.num - 1)) := ⟨by omega, hne⟩
    have hlastKey := (h.numbers (ofInt (int (s.num - 1)))).mpr ⟨s.num - 1, by omega, rfl⟩
    obtain ⟨v, hv⟩ := Option.isSome_iff_exists.mp hlastKey
    have hlastIndex := (h.inverse _ _).mpr hv
    unfold RandSet.remove
    rw [hidx]
    simp only [if_pos hbranch, hv, Option.getD_some, toInt_ofInt]
    refine ⟨trivial, h.shrink ht hmem rfl (h.inverse.replace hidx hlastIndex hne) ?_ ?_⟩
    · exact isSome_update_update (hlastIndex ▸ rfl) _
    · exact isSome_update_update (hback ▸ rfl) _

theorem insert_of_full (hidx : s.toIndex (toInt t) = none) (hfull : ¬ s.num + 1 < intBound) :
    s.insert t = none := by
  unfold RandSet.insert
  rw [hidx]
  simp only [dif_neg hfull]

theorem remove_of_none (hidx : s.toIndex (toInt t) = none) : s.remove t = (false, s) := by
  unfold RandSet.remove
  rw [hidx]

/-- Whatever is taken for the value is removed. -/
theorem remove_of_some {k : T} (hidx : s.toIndex (toInt t) = some k) : (s.remove t).1 = true := by
  unfold RandSet.remove
  rw [hidx]
  simp only
  split <;> rfl

theorem ActsAs.insert_iff (h : s.ActsAs S) (t : T) :
    (∃ s', s.insert t = some (decide (t ∉ S), s') ∧ s'.ActsAs (Insert.insert t S)) ↔
      Stored t ∧ (t ∈ S ∨ S.card + 1 < intBound) := by
  constructor
  · rintro ⟨s', hinsert, h'⟩
    -- a member of the new set is stored
    have ht : Stored t := (h'.mem_iff.mp (Finset.mem_insert_self t S)).2
    refine ⟨ht, ?_⟩
    by_contra hnot
    obtain ⟨hmem, hfull⟩ := not_or.mp hnot
    have hidx : s.toIndex (toInt t) = none := by
      by_contra hsome
      exact hmem (h.mem_iff.mpr ⟨Option.isSome_iff_ne_none.mpr hsome, ht⟩)
    have hsize : s.num = S.card := h.size
    rw [insert_of_full hidx (hsize ▸ hfull)] at hinsert
    cases hinsert
  · rintro ⟨ht, hroom⟩
    obtain ⟨s', hinsert, h'⟩ := h.toNumbered.insert ht hroom
    exact ⟨s', hinsert, h'.actsAs⟩

theorem ActsAs.remove_iff (h : s.ActsAs S) (t : T) :
    (∃ s', some (s.remove t) = some (decide (t ∈ S), s') ∧ s'.ActsAs (S.erase t)) ↔
      Stored t ∨ ofInt (toInt t) ∉ S := by
  cases hidx : s.toIndex (toInt t) with
  | none =>
    have hmem := h.notMem hidx
    refine iff_of_true ⟨s, ?_, ?_⟩ (.inr (h.notMem ?_))
    · rw [remove_of_none hidx, decide_eq_false hmem]
    · rwa [Finset.erase_eq_of_notMem hmem]
    · rwa [toInt_ofInt]
  | some k =>
    have htaken : ofInt (toInt t) ∈ S := (h.members _).mpr ⟨toInt t, by rw [hidx]; rfl, rfl⟩
    rw [or_iff_left (not_not.mpr htaken)]
    constructor
    · rintro ⟨s', hremove, -⟩
      have hanswer := congrArg Prod.fst (Option.some.inj hremove)
      rw [remove_of_some hidx] at hanswer
      exact (h.mem_iff.mp (of_decide_eq_true hanswer.symm)).2
    · intro ht
      have hmem : t ∈ S := ht ▸ htaken
      obtain ⟨htrue, h'⟩ := h.toNumbered.remove ht hmem
      refine ⟨(s.remove t).2, ?_, h'.actsAs⟩
      rw [decide_eq_true hmem, ← htrue]

/-- One call. -/
theorem ActsAs.exec_iff (h : s.ActsAs S) (op : SetOp T) :
    (∃ s', s.exec op = some (op.answer S, s') ∧ s'.ActsAs (op.next S)) ↔ op.Keeps S := by
  cases op with
  | insert t => exact h.insert_iff t
  | remove t => exact h.remove_iff t

end RandSet

/-! ## Sets of `uint64_t` -/

/-- The values between `INT32_MIN` and `INT32_MAX`, sign-extended. -/
theorem stored_iff (t : BitVec 64) : Stored t ↔ t.toNat < 2 ^ 31 ∨ 2 ^ 64 - 2 ^ 31 ≤ t.toNat := by
  show (t.setWidth 32).signExtend 64 = t ↔ _
  have hlt := t.isLt
  rw [← BitVec.toNat_inj, BitVec.toNat_signExtend, BitVec.msb_eq_decide]
  simp only [BitVec.toNat_setWidth, decide_eq_true_eq]
  split
  · omega
  · omega

theorem randSet_acts_as_set_iff (ops : List (SetOp (BitVec 64))) :
    Simulates RandSet.exec (fun S s => s.ActsAs S) SetOp.next SetOp.answer ∅ .empty ops ↔
      Along SetOp.next SetOp.Keeps ∅ ops :=
  simulates_iff (fun _ _ op h => h.exec_iff op) ops RandSet.empty_numbered.actsAs

/-- `1 << 32` is taken for `0`, and `1 << 31` is drawn as `-(1 << 31)`. -/
theorem insert_takes_for_member :
    answers RandSet.exec [.insert (0 : BitVec 64), .insert 0x100000000] .empty =
      some [true, false] ∧
      ((RandSet.empty.insert (0x80000000 : BitVec 64)).bind fun x => x.2.get 0) =
        some 0xffffffff80000000 ∧
      ¬ Simulates RandSet.exec (fun S s => s.ActsAs S) SetOp.next SetOp.answer ∅ .empty
        [.insert (0 : BitVec 64), .insert 0x100000000] := by
  refine ⟨by decide, by decide, ?_⟩
  rintro ⟨-, s, hs, -, s', hs', -⟩
  cases hs
  have hanswer : _ = some true := congrArg (Option.map Prod.fst) hs'
  revert hanswer
  decide

end LogDirect.CpuAccess
