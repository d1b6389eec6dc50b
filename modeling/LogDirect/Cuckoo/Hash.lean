import Mathlib.Algebra.Group.Nat.Defs
import Mathlib.Data.Nat.Bitwise

/-!
# libcuckoo: the two buckets of a key

The hashing functions of `cuckoohash_map.h` (lines 740–803 and 1113): a key has a hash
value and a byte made of it, and from the two the table takes a first bucket and an
alternate one. `Home` says that a bucket is one of the two.

What the rest of the table rests on is here: the alternate of the alternate bucket is the
first one again, and when the table doubles, a bucket of a key either stays where it is
or goes up by the old number of buckets.
-/

namespace LogDirect.Cuckoo

/-- `hash_value` -/
structure HashValue where
  hash : UInt64
  partialKey : UInt8
deriving DecidableEq

/-- `partial_key`: the hash value is folded three times. -/
def partialKey (hash : UInt64) : UInt8 :=
  let hash32 := hash.toUInt32 ^^^ (hash >>> 32).toUInt32
  let hash16 := hash32.toUInt16 ^^^ (hash32 >>> 16).toUInt16
  hash16.toUInt8 ^^^ (hash16 >>> 8).toUInt8

/-- `hashsize` -/
def hashsize (hp : Nat) : Nat := 1 <<< hp

/-- `hashmask` -/
def hashmask (hp : Nat) : Nat := hashsize hp - 1

/-- `index_hash` -/
def indexHash (hp : Nat) (hv : UInt64) : Nat := hv.toNat &&& hashmask hp

/-- `alt_index` -/
def altIndex (hp : Nat) (tag : UInt8) (index : Nat) : Nat :=
  let nonzeroTag := tag.toNat + 1
  (index ^^^ nonzeroTag * 0xc6a4a7935bd1e995 % 2 ^ 64) &&& hashmask hp

/-- `kMaxNumLocks` -/
def kMaxNumLocks : Nat := 1 <<< 16

/-- `lock_ind` -/
def lockInd (bucketInd : Nat) : Nat := bucketInd &&& (kMaxNumLocks - 1)

theorem hashsize_eq (hp : Nat) : hashsize hp = 2 ^ hp := Nat.one_shiftLeft hp

theorem hashsize_pos (hp : Nat) : 0 < hashsize hp := by
  rw [hashsize_eq]
  exact Nat.two_pow_pos hp

theorem hashsize_succ (hp : Nat) : hashsize (hp + 1) = 2 * hashsize hp := by
  rw [hashsize_eq, hashsize_eq, Nat.pow_succ, Nat.mul_comm]

theorem and_hashmask (n hp : Nat) : n &&& hashmask hp = n % hashsize hp := by
  rw [hashmask, hashsize_eq, Nat.and_two_pow_sub_one_eq_mod]

theorem indexHash_eq (hp : Nat) (hv : UInt64) : indexHash hp hv = hv.toNat % hashsize hp :=
  and_hashmask _ hp

theorem altIndex_eq (hp : Nat) (tag : UInt8) (index : Nat) :
    altIndex hp tag index =
      (index ^^^ (tag.toNat + 1) * 0xc6a4a7935bd1e995 % 2 ^ 64) % hashsize hp :=
  and_hashmask _ hp

theorem indexHash_lt (hp : Nat) (hv : UInt64) : indexHash hp hv < hashsize hp := by
  rw [indexHash_eq]
  exact Nat.mod_lt _ (hashsize_pos hp)

theorem altIndex_lt (hp : Nat) (tag : UInt8) (index : Nat) :
    altIndex hp tag index < hashsize hp := by
  rw [altIndex_eq]
  exact Nat.mod_lt _ (hashsize_pos hp)

/-- The alternate of the alternate bucket is the bucket itself. -/
theorem altIndex_altIndex {hp index : Nat} (tag : UInt8) (h : index < hashsize hp) :
    altIndex hp tag (altIndex hp tag index) = index := by
  rw [altIndex_eq, altIndex_eq]
  generalize (tag.toNat + 1) * 0xc6a4a7935bd1e995 % 2 ^ 64 = x
  rw [hashsize_eq] at h ⊢
  rw [Nat.xor_mod_two_pow, Nat.mod_mod, Nat.xor_mod_two_pow, Nat.xor_assoc, Nat.xor_self,
    Nat.xor_zero, Nat.mod_eq_of_lt h]

/-! ## A larger table -/

theorem mod_hashsize_succ (n hp : Nat) : n % hashsize (hp + 1) % hashsize hp = n % hashsize hp := by
  rw [hashsize_succ]
  exact Nat.mod_mod_of_dvd n (Nat.dvd_mul_left _ _)

theorem indexHash_mod (hp : Nat) (hv : UInt64) :
    indexHash (hp + 1) hv % hashsize hp = indexHash hp hv := by
  rw [indexHash_eq, indexHash_eq, mod_hashsize_succ]

theorem altIndex_mod (hp : Nat) (tag : UInt8) (index : Nat) :
    altIndex (hp + 1) tag index % hashsize hp = altIndex hp tag (index % hashsize hp) := by
  rw [altIndex_eq, altIndex_eq, mod_hashsize_succ, hashsize_eq, Nat.xor_mod_two_pow,
    Nat.xor_mod_two_pow, Nat.mod_mod]

/-- An index of the larger table is the old one, or it lies as far up as the old table is
long. -/
theorem eq_or_eq_add {hp i j : Nat} (hi : i < hashsize (hp + 1)) (h : i % hashsize hp = j) :
    i = j ∨ i = j + hashsize hp := by
  rw [hashsize_succ] at hi
  have hlow : i % hashsize hp < hashsize hp := Nat.mod_lt _ (hashsize_pos hp)
  have hsum := Nat.div_add_mod i (hashsize hp)
  have hq : i / hashsize hp < 2 := Nat.div_lt_of_lt_mul (by rwa [Nat.mul_comm])
  rcases Nat.lt_or_ge (i / hashsize hp) 1 with h0 | h1
  · rw [Nat.lt_one_iff.mp h0] at hsum
    omega
  · have hone : i / hashsize hp = 1 := by omega
    rw [hone] at hsum
    omega

/-! ## The buckets of a key -/

/-- One of the two buckets of a hash value. -/
def Home (hp : Nat) (hv : HashValue) (i : Nat) : Prop :=
  i = indexHash hp hv.hash ∨ i = altIndex hp hv.partialKey (indexHash hp hv.hash)

instance (hp : Nat) (hv : HashValue) (i : Nat) : Decidable (Home hp hv i) :=
  inferInstanceAs (Decidable (_ ∨ _))

theorem Home.lt {hp i : Nat} {hv : HashValue} (h : Home hp hv i) : i < hashsize hp := by
  rcases h with rfl | rfl
  · exact indexHash_lt hp hv.hash
  · exact altIndex_lt hp _ _

/-- From either bucket `alt_index` leads to the other. -/
theorem Home.alt {hp i : Nat} {hv : HashValue} (h : Home hp hv i) :
    Home hp hv (altIndex hp hv.partialKey i) := by
  rcases h with rfl | rfl
  · exact .inr rfl
  · exact .inl (altIndex_altIndex _ (indexHash_lt hp hv.hash))

/-! ## The locks -/

theorem kMaxNumLocks_eq : kMaxNumLocks = hashsize 16 := rfl

theorem lockInd_eq (i : Nat) : lockInd i = i % kMaxNumLocks := and_hashmask i 16

theorem lockInd_lt (i : Nat) : lockInd i < kMaxNumLocks := by
  rw [lockInd_eq]
  exact Nat.mod_lt _ (hashsize_pos 16)

theorem kMaxNumLocks_dvd {hp : Nat} (h : kMaxNumLocks ≤ hashsize hp) :
    kMaxNumLocks ∣ hashsize hp := by
  rw [kMaxNumLocks_eq, hashsize_eq, hashsize_eq] at h
  rw [kMaxNumLocks_eq, hashsize_eq, hashsize_eq]
  exact Nat.pow_dvd_pow 2 ((Nat.pow_le_pow_iff_right Nat.one_lt_two).mp h)

theorem lockInd_mod {hp : Nat} (h : kMaxNumLocks ≤ hashsize hp) (i : Nat) :
    lockInd (i % hashsize hp) = lockInd i := by
  rw [lockInd_eq, lockInd_eq, Nat.mod_mod_of_dvd i (kMaxNumLocks_dvd h)]

end LogDirect.Cuckoo
