import LogDirect.Core.Request

/-!
# Values of the benchmark

`BuildValue` of `generator.h`. A value is a word, the key and as much of a constant pool as
the length asks for. The pool is measured with `sizeof`, which counts the NUL behind the
text; a value that takes the whole pool has the NUL in it, and what the clients send is
measured with `strlen`.
-/

namespace LogDirect.Bench

open Lib

/-! ## The generator -/

/-- The literals of `VALUE_POOL`. -/
def valuePoolLines : List String := [
  "l9hd62^dfh.pxrC6ZU79OnfCZ06DsNXWY3U4dt1JTGQVvylBdZSlHWXC4PokCxsMdjv8xRptFMMQyH12DEr7Zur",
  "tZpsyreMmPwuw7WMRnoN5wAYWtkqDwXyQlYb4RgtSc4xsonpTx2UhIUi15oJTx1CXAhmECacCQf4eeJ9Utus0N",
  "mKgEFV8qYDsNtJ21TkjCyCDhVIATkEugCw1BfNIB9AZDGiqXc0llp4rlJPl4bIG2QC4La3M1oh3yIGkolpdoYV",
  "er1dc9EfQz88q5Hv00g53Q3H6jcgicoY8YW5K4josd2e53ikesQi2kzqvTI9xxM5wtFexkFm8wFdTf37Hz204w",
  "fQErGZkdMnRxXJ5EJ627e7zuFuVtazb0L65B3nU5R9tyUl2bTZiDcakK9evrTXoTkbkGjkCOiMSTNCzlUZCxof",
  "jYQCLusRkXEm0CNVuifTnytctwLfKjwob4hJ0WxlQN9FV9Mm9zT61EQ8zEMrqr6hf7XMqhcQR7DWAKaspUaU6h",
  "oP2w3t3MktVaBp6MgS6Apbkb7EsihETHHqKFkKMCkYBbKfgsq7Jy49T1Wx2UJsD3XX03kVBbqRWmrjIKzqQEnN",
  "sd0f-0d09540936/.f/dfprjetroeijtte0985409609254fj/.s.1293@1!$43556oi5y6o54yi6ikjsdbfsd",
  ")(*7^hdjdyf484*^%$$3\x7b\x7d\x7d\x7b\x7d\x7bPOI)_IUOHH&*^^&$Dydyutd65456djug(*_(*OIHJHKJBKJBKJB@A@A$gggg",
  "+_0-8435906IYWV79364ngkbo5m788*()M<:>><:Lpkdfgmgrtjyoyij5yj657i6509ju560ju560ju0uj0uj6",
  "NvhE8N7yR26fgHncH6QbsI10HyxlvYHKFiMk5nPNDbffueF2xKLzteSd0NazU2APkJWXvBW2oUu8dkZnWMM8TH",
  "vrUoLDWwMdh14MfxwmEQbtGnUHEpRktUB6b7JTJN8IHyxlvYHKFiMk5nPND()bueF2xKLz;|@f,t"]

/-- A character of a literal. -/
def byte (c : Char) : UInt8 := UInt8.ofNat c.toNat

/-- The characters of `VALUE_POOL`. -/
def valuePoolText : Bytes := valuePoolLines.flatMap fun line => line.toList.map byte

/-- `VALUE_POOL`, an array that ends with a NUL. -/
def valuePool : Bytes := valuePoolText ++ [0]

/-- `"VALUE_"` -/
def valueWord : Bytes := "VALUE_".toList.map byte

/-- `INT32_MAX` -/
def int32Max : Nat := 2 ^ 31 - 1

theorem valuePool_length_pos : 0 < valuePool.length :=
  List.length_pos_of_mem (List.mem_append_right _ List.mem_cons_self)

/-- The loop of `BuildValue`; `none` is an overflow of `cur_length`. -/
def padLoop (length curLength : Nat) (result : Bytes) : Option Bytes :=
  if curLength < length then
    let cutLen := min (length - curLength) valuePool.length
    if curLength + cutLen ≤ int32Max then
      padLoop length (curLength + cutLen) (result ++ valuePool.take cutLen)
    else none
  else some result
termination_by length - curLength
decreasing_by
  have := valuePool_length_pos
  omega

/-- `BuildValue` -/
def buildValue (length : UInt32) (key : Bytes) : Option Bytes :=
  let result := valueWord ++ key
  let length := length - UInt32.ofNat result.length
  padLoop length.toNat 0 result

/-! ## The pool -/

/-- The characters behind the literals, none of which is a NUL. -/
theorem valuePoolLines_chars : ∃ css : List (List Char), valuePoolLines = css.map String.ofList ∧
    (∀ cs ∈ css, 0 ∉ cs.map byte) ∧ (css.map List.length).sum = 1023 := by
  refine ⟨[_, _, _, _, _, _, _, _, _, _, _, _], rfl, ?_, ?_⟩
  · decide +kernel
  · decide +kernel

theorem valuePoolText_spec : 0 ∉ valuePoolText ∧ valuePoolText.length = 1023 := by
  obtain ⟨css, hlines, hbytes, hlen⟩ := valuePoolLines_chars
  have htext : valuePoolText = css.flatMap fun cs => cs.map byte := by
    unfold valuePoolText
    rw [hlines, List.flatMap_map]
    simp only [String.toList_ofList]
  rw [htext, List.mem_flatMap, List.length_flatMap]
  simp only [List.length_map]
  refine ⟨?_, hlen⟩
  rintro ⟨cs, hcs, hzero⟩
  exact hbytes cs hcs hzero

/-- `sizeof(VALUE_POOL)` -/
theorem length_valuePool : valuePool.length = 1024 := by
  rw [valuePool, List.length_append, valuePoolText_spec.2]
  rfl

theorem valueWord_spec : 0 ∉ valueWord ∧ valueWord.length = 6 := by
  decide

/-! ## The loop -/

/-- One turn is enough for a pool's length. -/
theorem padLoop_short {length : Nat} (h : length ≤ valuePool.length) (result : Bytes) :
    padLoop length 0 result = some (result ++ valuePool.take length) := by
  have hpool := length_valuePool
  have hmax : int32Max = 2147483647 := rfl
  by_cases hpos : 0 < length
  · have hcut : min (length - 0) valuePool.length = length := by omega
    rw [padLoop, if_pos hpos]
    simp only [hcut]
    rw [if_pos (by omega), padLoop, if_neg (by omega)]
  · have hzero : length = 0 := by omega
    rw [padLoop, if_neg hpos, hzero, List.take_zero, List.append_nil]

/-- What is in the string stays in it. -/
theorem padLoop_mem {length curLength : Nat} {result value : Bytes}
    (h : padLoop length curLength result = some value) {b : UInt8} (hb : b ∈ result) :
    b ∈ value := by
  fun_induction padLoop length curLength result with
  | case1 curLength result _ cutLen _ ih => exact ih h (List.mem_append_left _ hb)
  | case2 => cases h
  | case3 =>
    cases h
    exact hb

/-- A first turn that takes the whole pool takes its NUL. -/
theorem padLoop_long {length : Nat} {result value : Bytes} (h : valuePool.length ≤ length)
    (hvalue : padLoop length 0 result = some value) : 0 ∈ value := by
  have hpool := length_valuePool
  have hmax : int32Max = 2147483647 := rfl
  have hcut : min (length - 0) valuePool.length = valuePool.length := by omega
  rw [padLoop, if_pos (by omega)] at hvalue
  simp only [hcut] at hvalue
  rw [if_pos (by omega), List.take_length] at hvalue
  exact padLoop_mem hvalue (List.mem_append_right _ (List.mem_append_right _ List.mem_cons_self))

/-! ## The value -/

section Value

variable {key : Bytes} {length : UInt32}

theorem zero_notMem_value {pad : Bytes} (hkey : 0 ∉ key) (hpad : 0 ∉ pad) :
    0 ∉ valueWord ++ key ++ pad := by
  rw [List.mem_append, List.mem_append]
  rintro ((h | h) | h)
  · exact valueWord_spec.1 h
  · exact hkey h
  · exact hpad h

theorem buildValue_eq (h : 6 + key.length ≤ length.toNat) :
    buildValue length key = padLoop (length.toNat - (6 + key.length)) 0 (valueWord ++ key) := by
  have hlt := length.toNat_lt
  have hsize : (valueWord ++ key).length = 6 + key.length := by
    rw [List.length_append, valueWord_spec.2]
  have hnat : (UInt32.ofNat (6 + key.length)).toNat = 6 + key.length :=
    UInt32.toNat_ofNat_of_lt' (Nat.lt_of_le_of_lt h hlt)
  show padLoop (length - UInt32.ofNat (valueWord ++ key).length).toNat 0 _ = _
  rw [hsize, UInt32.toNat_sub_of_le _ _ (UInt32.le_iff_toNat_le.mpr (hnat.trans_le h)), hnat]

/-- A value is measured as it was asked for exactly if it takes less than the pool. -/
theorem buildValue_length_iff (hkey : 0 ∉ key) (hlen : 6 + key.length ≤ length.toNat) :
    (∃ value, buildValue length key = some value ∧ value.length = length.toNat ∧ 0 ∉ value ∧
      strlen value = length.toNat) ↔ length.toNat < 6 + key.length + 1024 := by
  have hpool := length_valuePool
  rw [buildValue_eq hlen]
  constructor
  · rintro ⟨value, hvalue, -, hzero, -⟩
    by_contra hlong
    exact hzero (padLoop_long (by omega) hvalue)
  · intro hshort
    rw [padLoop_short (by omega)]
    have htake : valuePool.take (length.toNat - (6 + key.length)) =
        valuePoolText.take (length.toNat - (6 + key.length)) := by
      rw [valuePool, List.take_append_of_le_length]
      rw [valuePoolText_spec.2]
      omega
    have hzero : 0 ∉ valueWord ++ key ++ valuePool.take (length.toNat - (6 + key.length)) := by
      rw [htake]
      exact zero_notMem_value hkey fun h => valuePoolText_spec.1 (List.mem_of_mem_take h)
    have hsize : (valueWord ++ key ++ valuePool.take (length.toNat - (6 + key.length))).length =
        length.toNat := by
      rw [List.length_append, List.length_append, valueWord_spec.2, List.length_take]
      omega
    exact ⟨_, rfl, hsize, hzero, (strlen_eq hzero).trans hsize⟩

end Value

/-- The key of `BuildKey(1)`. -/
def keyOne : Bytes := "KEY_000000000001".toList.map byte

theorem keyOne_spec : 0 ∉ keyOne ∧ keyOne.length = 16 := by
  decide

theorem buildValue_length_keyOne :
    0 ∉ keyOne ∧ 6 + keyOne.length ≤ (100 : UInt32).toNat ∧
      ((∃ value, buildValue 100 keyOne = some value ∧ value.length = (100 : UInt32).toNat ∧
        0 ∉ value ∧ strlen value = (100 : UInt32).toNat) ↔
          (100 : UInt32).toNat < 6 + keyOne.length + 1024) :=
  have hlen : 6 + keyOne.length ≤ (100 : UInt32).toNat := by
    rw [keyOne_spec.2]
    decide
  ⟨keyOne_spec.1, hlen, buildValue_length_iff keyOne_spec.1 hlen⟩

/-- A value of 1046 bytes for a key of 16 is sent without its last one. -/
theorem buildValue_loses_byte :
    ∃ value, buildValue 1046 keyOne = some value ∧ strlen value = 1045 := by
  have hpool := length_valuePool
  have hlen : (1046 : UInt32).toNat - (6 + keyOne.length) = valuePool.length := by
    rw [keyOne_spec.2, hpool]
    rfl
  have hzero := zero_notMem_value keyOne_spec.1 valuePoolText_spec.1
  refine ⟨valueWord ++ keyOne ++ valuePoolText ++ [0], ?_, ?_⟩
  · rw [buildValue_eq (by rw [keyOne_spec.2]; decide), hlen, padLoop_short le_rfl,
      List.take_length, valuePool, List.append_assoc (valueWord ++ keyOne)]
  · rw [strlen_append_nul hzero, List.length_append, List.length_append, valueWord_spec.2,
      keyOne_spec.2, valuePoolText_spec.2]

end LogDirect.Bench
