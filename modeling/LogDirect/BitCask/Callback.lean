import LogDirect.BitCask.Scan
import Mathlib.Algebra.Order.BigOperators.Group.List

/-!
# BitCask: the scan of one index file

`DBImpl::IndexCallback` run to its end on a file of any contents. What it should find is
`records`: the index records at the front of the file that are complete. The scan trusts the
size fields: it does not look at where the file ends, neither for a record that is cut short
nor behind one. It finds the records, then, exactly if the file ends with them
(`indexCallback_sound_iff`); an index file that was written to its end does
(`indexCallback_appended`).
-/

namespace LogDirect.BitCask

open Lib

/-! ## The loop -/

/-- One turn of the loop: the offsets of its reads and the record it decodes. -/
structure Decoded where
  sizeAt : Nat
  indexAt : Nat
  record : Option IndexRecord
  deriving DecidableEq

/-- The loop from `pos`, with what turn `n` finds in its buffers: the turns, and the position
behind the last of them. `none` is a fault, or that the turns are not enough. -/
def indexCallback (stack : Nat → Mem) (file : File) :
    (turns n pos : Nat) → Option (List Decoded × Nat)
  | 0, _, pos => if pos < file.fileOffset then none else some ([], pos)
  | turns + 1, n, pos =>
      if pos < file.fileOffset then
        (turn (stack n) file pos).bind fun x =>
          (indexCallback stack file turns (n + 1) x.1).map fun y =>
            (⟨pos, u32 (pos + 4), x.2⟩ :: y.1, y.2)
      else some ([], pos)

/-- What the turns make of `hash_table_`. -/
def Table.scan (t : Table) (turns : List Decoded) : Table :=
  turns.foldl (fun t d => t.apply d.record) t

/-! ## The complete records -/

/-- A record as it is read back, with a file index of 32 bits. -/
structure IndexRecord.WellFormed (r : IndexRecord) : Prop extends r.Fits where
  stored : r.stored = r

/-- The record at the front of a byte string, if it is complete. -/
def recordAt (bs : Bytes) : Option IndexRecord :=
  let r := decodeIndex (Mem.write (fun _ => 0) 0 (bs.drop 4))
  if leNat (bs.take 4) = r.keySize + 16 ∧ r.keySize + 20 ≤ bs.length then some r else none

/-- The records in the first `n` places. -/
def firstRecords : Nat → Bytes → List IndexRecord
  | 0, _ => []
  | n + 1, bs =>
      match recordAt bs with
      | none => []
      | some r => r :: firstRecords n (bs.drop (r.keySize + 20))

/-- The records at the front of a file. None is empty, so that there are no more of them than
bytes. -/
def records (held : Bytes) : List IndexRecord := firstRecords held.length held

/-- The turns of a scan that finds the records from `pos` on where they are. -/
def Decoded.ofRecords : Nat → List IndexRecord → List Decoded
  | _, [] => []
  | pos, r :: rs => ⟨pos, pos + 4, some r⟩ :: ofRecords (pos + r.encode.length) rs

theorem Decoded.record_ofRecords (rs : List IndexRecord) : ∀ pos : Nat,
    (ofRecords pos rs).map record = rs.map some := by
  induction rs with
  | nil => exact fun _ => rfl
  | cons r rs ih => exact fun pos => congrArg (some r :: ·) (ih _)

theorem leBytes_decodeFixed32 (buf : Mem) (pos : Nat) :
    leBytes 4 (decodeFixed32 buf pos) = buf.read pos 4 := by
  have h := leBytes_leNat (buf.read pos 4)
  rwa [Mem.length_read] at h

theorem decodeFixed32_lt (buf : Mem) (pos : Nat) : decodeFixed32 buf pos < 2 ^ 32 := by
  have h := leNat_lt (buf.read pos 4)
  rw [Mem.length_read] at h
  exact h

/-- What is decoded from a buffer is a record in it. -/
theorem body_decodeIndex (buf : Mem) :
    (decodeIndex buf).body = buf.read 0 ((decodeIndex buf).keySize + 16) := by
  have hsplit : (decodeIndex buf).keySize + 16 = 4 + 4 + 4 + decodeFixed32 buf 8 + 4 := by
    show decodeFixed32 buf 8 + 16 = _
    omega
  rw [hsplit, Mem.read_add, Mem.read_add, Mem.read_add, Mem.read_add]
  simp only [Nat.zero_add, Nat.reduceAdd, IndexRecord.body, decodeIndex, Mem.length_read,
    leBytes_decodeFixed32]

theorem decodeIndex_wellFormed {buf : Mem} (h : (decodeIndex buf).keySize + 16 < 2 ^ 32) :
    (decodeIndex buf).WellFormed := by
  have hkey : (decodeIndex buf).key.length = (decodeIndex buf).keySize := Mem.length_read ..
  refine ⟨⟨hkey.symm, hkey ▸ h, decodeFixed32_lt .., decodeFixed32_lt ..⟩, ?_⟩
  have hindex : u32 (decodeIndex buf).fileIndex = (decodeIndex buf).fileIndex :=
    u32_eq (decodeFixed32_lt ..)
  rw [IndexRecord.stored, hindex]

/-- A complete record is one that the front of the byte string encodes. -/
theorem recordAt_eq_some {bs : Bytes} {r : IndexRecord} : recordAt bs = some r ↔
    r.WellFormed ∧ ∃ post, bs = r.encode ++ post := by
  unfold recordAt
  constructor
  · intro h
    simp only at h
    split at h
    · rename_i hcomplete
      obtain ⟨hsize, hlen⟩ := hcomplete
      cases h
      generalize hbuf : Mem.write (fun _ => 0) 0 (bs.drop 4) = buf at hsize hlen
      have hword := leNat_lt (bs.take 4)
      have hfour : (bs.take 4).length = 4 := by
        rw [List.length_take]
        omega
      rw [hfour, hsize] at hword
      have hwf := decodeIndex_wellFormed hword
      refine ⟨hwf, bs.drop (4 + ((decodeIndex buf).keySize + 16)), ?_⟩
      have hbody : (decodeIndex buf).body = (bs.drop 4).take ((decodeIndex buf).keySize + 16) := by
        rw [body_decodeIndex, ← hbuf]
        have hread : (Mem.write (fun _ => 0) 0 (bs.drop 4)).read (0 + 0)
            ((decodeIndex buf).keySize + 16) =
              ((bs.drop 4).drop 0).take ((decodeIndex buf).keySize + 16) :=
          Mem.read_write_sub _ (by rw [List.length_drop]; omega)
        rw [← hbuf] at hread
        exact hread
      have hhead : leBytes 4 ((decodeIndex buf).key.length + 16) = bs.take 4 := by
        have h := leBytes_leNat (bs.take 4)
        rwa [hfour, hsize, hwf.keySize] at h
      rw [IndexRecord.encode_eq hwf.toFits, hbody, hhead, ← List.take_add, List.take_append_drop]
    · cases h
  · rintro ⟨⟨hfits, hstored⟩, post, rfl⟩
    have hsplit : r.encode ++ post = leBytes 4 (r.key.length + 16) ++ (r.body ++ post) := by
      rw [IndexRecord.encode_eq hfits, List.append_assoc]
    have hbuf : (Mem.write (fun _ => 0) 0 ((r.encode ++ post).drop 4)).read 0 r.body.length =
        r.body := by
      rw [hsplit, List.drop_left' (length_leBytes ..)]
      refine Mem.read_left r.body post ?_
      rw [← List.length_append]
      exact Mem.read_write ..
    have hdecode := IndexRecord.decodeIndex_body hfits hbuf
    simp only [hdecode, hstored]
    rw [if_pos]
    refine ⟨?_, ?_⟩
    · rw [hsplit, List.take_left' (length_leBytes ..), leNat_leBytes_four, u32_eq hfits.small,
        hfits.keySize]
    · rw [List.length_append, IndexRecord.length_encode hfits, hfits.keySize]
      omega

theorem drop_encode {r : IndexRecord} (h : r.Fits) (post : Bytes) :
    (r.encode ++ post).drop (r.keySize + 20) = post :=
  List.drop_left' (by rw [IndexRecord.length_encode h, h.keySize])

/-- A file begins with the encoding of its records. -/
theorem firstRecords_spec (n : Nat) : ∀ bs : Bytes,
    (∃ post, bs = encodeAll (firstRecords n bs) ++ post) ∧
      ∀ r ∈ firstRecords n bs, r.WellFormed := by
  induction n with
  | zero => exact fun bs => ⟨⟨bs, rfl⟩, fun r hr => absurd hr List.not_mem_nil⟩
  | succ n ih =>
    intro bs
    unfold firstRecords
    cases hr : recordAt bs with
    | none => exact ⟨⟨bs, rfl⟩, fun r hr => absurd hr List.not_mem_nil⟩
    | some r =>
      obtain ⟨hwf, post, rfl⟩ := recordAt_eq_some.mp hr
      obtain ⟨⟨post', hpost⟩, hrest⟩ := ih post
      simp only [drop_encode hwf.toFits]
      refine ⟨⟨post', ?_⟩, ?_⟩
      · rw [encodeAll_cons, List.append_assoc, ← hpost]
      · intro x hx
        rcases List.mem_cons.mp hx with rfl | hx
        · exact hwf
        · exact hrest x hx

variable {rs : List IndexRecord} {held : Bytes}

/-- Whatever records a file begins with are among them. -/
theorem firstRecords_longest {n : Nat} (hn : rs.length ≤ n) (hwf : ∀ r ∈ rs, r.WellFormed)
    (post : Bytes) : rs <+: firstRecords n (encodeAll rs ++ post) := by
  induction rs generalizing n with
  | nil => exact List.nil_prefix
  | cons r rs ih =>
    obtain ⟨m, rfl⟩ : ∃ m, n = m + 1 := ⟨n - 1, by rw [List.length_cons] at hn; omega⟩
    have hr := hwf r List.mem_cons_self
    have hsplit : encodeAll (r :: rs) ++ post = r.encode ++ (encodeAll rs ++ post) := by
      rw [encodeAll_cons, List.append_assoc]
    have hrest := ih (Nat.le_of_succ_le_succ hn) fun x hx => hwf x (List.mem_cons_of_mem _ hx)
    unfold firstRecords
    rw [hsplit, recordAt_eq_some.mpr ⟨hr, _, rfl⟩]
    simp only [drop_encode hr.toFits]
    exact (List.prefix_cons_inj r).mpr hrest

theorem length_le_encodeAll (rs : List IndexRecord) : rs.length ≤ (encodeAll rs).length := by
  induction rs with
  | nil => exact Nat.le_refl 0
  | cons r rs ih =>
    rw [encodeAll_cons, List.length_append, List.length_cons]
    simp only [IndexRecord.encode, encodeIndex, List.length_append, length_leBytes]
    omega

theorem records_spec (held : Bytes) : (∃ post, held = encodeAll (records held) ++ post) ∧
    ∀ r ∈ records held, r.WellFormed :=
  firstRecords_spec held.length held

/-- `records` is the longest list of records that a file begins with. -/
theorem records_longest (hwf : ∀ r ∈ rs, r.WellFormed) (h : encodeAll rs <+: held) :
    rs <+: records held := by
  obtain ⟨post, rfl⟩ := h
  refine firstRecords_longest ?_ hwf post
  rw [List.length_append]
  exact (length_le_encodeAll rs).trans (Nat.le_add_right ..)

/-! ## A scan of the records -/

section Scan

variable {stack : Nat → Mem} {held pre post : Bytes} {rs : List IndexRecord} {turns n : Nat}

/-- The places of records from `pos` on, for a scan that stops at `fileOffset`: every size field
is before it, the last record is not, and all of them end below 4 GiB. -/
structure Reaches (fileOffset pos : Nat) (rs : List IndexRecord) : Prop where
  starts : ∀ a r b, rs = a ++ r :: b → pos + (encodeAll a).length + 4 ≤ fileOffset
  ends : fileOffset ≤ pos + (encodeAll rs).length
  small : pos + (encodeAll rs).length < 2 ^ 32

variable {pos stop : Nat}

theorem reaches_cons {fileOffset : Nat} {r : IndexRecord} :
    Reaches fileOffset pos (r :: rs) ↔
      pos + 4 ≤ fileOffset ∧ Reaches fileOffset (pos + r.encode.length) rs := by
  have hlen : ∀ l, pos + (encodeAll (r :: l)).length =
      pos + r.encode.length + (encodeAll l).length := by
    intro l
    rw [encodeAll_cons, List.length_append, Nat.add_assoc]
  constructor
  · intro h
    refine ⟨h.starts [] r rs rfl, ?_, hlen rs ▸ h.ends, hlen rs ▸ h.small⟩
    intro a x b hrs
    rw [← hlen]
    exact h.starts (r :: a) x b (congrArg (r :: ·) hrs)
  · rintro ⟨hfirst, h⟩
    refine ⟨?_, hlen rs ▸ h.ends, hlen rs ▸ h.small⟩
    intro a x b hrs
    cases a with
    | nil => exact hfirst
    | cons y a =>
      obtain ⟨rfl, htail⟩ := List.cons.inj hrs
      rw [hlen]
      exact h.starts a x b htail

theorem indexCallback_stop {file : File} (h : file.fileOffset ≤ pos) :
    indexCallback stack file turns n pos = some ([], pos) := by
  cases turns with
  | zero => exact if_neg (Nat.not_lt.mpr h)
  | succ turns => exact if_neg (Nat.not_lt.mpr h)

/-- The records are found. -/
theorem indexCallback_records (hwf : ∀ r ∈ rs, r.WellFormed)
    (hheld : held = pre ++ encodeAll rs ++ post)
    (h : Reaches (File.new held).fileOffset pre.length rs) :
    indexCallback stack (File.new held) rs.length n pre.length =
      some (Decoded.ofRecords pre.length rs, (pre ++ encodeAll rs).length) := by
  induction rs generalizing pre n with
  | nil =>
    have hend : (File.new held).fileOffset ≤ pre.length := h.ends
    rw [indexCallback_stop hend, Decoded.ofRecords, encodeAll, List.flatMap_nil, List.append_nil]
  | cons r rs ih =>
    obtain ⟨hoff, hrest⟩ := reaches_cons.mp h
    rw [← List.length_append] at hrest
    have hr := hwf r List.mem_cons_self
    have hend : (pre ++ r.encode).length < 2 ^ 32 :=
      Nat.lt_of_le_of_lt (Nat.le_add_right ..) hrest.small
    have hsplit : held = pre ++ r.encode ++ (encodeAll rs ++ post) := by
      rw [hheld, encodeAll_cons]
      simp only [List.append_assoc]
    have hturn := turn_record_at (stack n) hr.toFits hsplit hoff hend
    have hnext := ih (n := n + 1) (fun x hx => hwf x (List.mem_cons_of_mem _ hx))
      (hsplit.trans (List.append_assoc ..).symm) hrest
    have hpos : u32 (pre.length + 4) = pre.length + 4 := by
      rw [List.length_append, IndexRecord.length_encode hr.toFits] at hend
      exact u32_eq (by omega)
    rw [List.length_cons, indexCallback, if_pos (by omega), hturn, Option.bind_some, hnext,
      hr.stored, hpos, Decoded.ofRecords, encodeAll_cons, ← List.append_assoc, ← List.length_append]
    rfl

/-- The records of a file are found from its start. -/
theorem indexCallback_start (hwf : ∀ r ∈ rs, r.WellFormed) (hheld : held = encodeAll rs ++ post)
    (h : Reaches (File.new held).fileOffset 0 rs) :
    indexCallback stack (File.new held) rs.length 0 0 =
      some (Decoded.ofRecords 0 rs, (encodeAll rs).length) := by
  show indexCallback stack (File.new held) rs.length 0 ([] : Bytes).length =
    some (Decoded.ofRecords ([] : Bytes).length rs, ([] ++ encodeAll rs).length)
  exact indexCallback_records hwf hheld h

/-- A scan that makes no turn, and one that makes a first turn. -/
theorem indexCallback_inv {file : File} {trace : List Decoded}
    (h : indexCallback stack file turns n pos = some (trace, stop)) :
    (trace = [] ∧ file.fileOffset ≤ pos) ∨
      ∃ turns' x rest, pos < file.fileOffset ∧ turn (stack n) file pos = some x ∧
        indexCallback stack file turns' (n + 1) x.1 = some (rest, stop) ∧
        trace = ⟨pos, u32 (pos + 4), x.2⟩ :: rest := by
  by_cases hpos : pos < file.fileOffset
  · cases turns with
    | zero =>
      rw [indexCallback, if_pos hpos] at h
      cases h
    | succ turns =>
      rw [indexCallback, if_pos hpos] at h
      obtain ⟨x, hturn, h⟩ := Option.bind_eq_some_iff.mp h
      obtain ⟨y, hrest, heq⟩ := Option.map_eq_some_iff.mp h
      cases heq
      exact .inr ⟨turns, x, y.1, hpos, hturn, hrest, rfl⟩
  · rw [indexCallback_stop (Nat.not_lt.mp hpos)] at h
    cases h
    exact .inl ⟨rfl, Nat.not_lt.mp hpos⟩

/-- A scan that goes on where the records are has not wrapped: it would be back in front of
the size field. -/
theorem end_lt_of_indexCallback {r : IndexRecord} (hr : r.Fits)
    (hpos : u32 (pre.length + 4) = pre.length + 4)
    (hoff : pre.length + 4 ≤ (File.new held).fileOffset)
    (hscan : indexCallback stack (File.new held) turns n (u32 (pre ++ r.encode).length) =
      some (Decoded.ofRecords (pre.length + r.encode.length) rs, stop)) :
    (pre ++ r.encode).length < 2 ^ 32 := by
  rcases indexCallback_inv hscan with ⟨-, hend⟩ | ⟨_, _, _, _, _, _, hnext⟩
  · have hkey := hr.small
    rw [List.length_append, IndexRecord.length_encode hr] at hend ⊢
    simp only [u32] at hend hpos
    omega
  · cases rs with
    | nil => cases hnext
    | cons r' rs =>
      have heq : pre.length + r.encode.length = u32 (pre ++ r.encode).length :=
        congrArg Decoded.sizeAt (List.cons.inj hnext).1
      rw [List.length_append, heq]
      exact u32_lt _

/-- A scan that finds the records where they are reads nothing else. -/
theorem reaches_of_indexCallback (hwf : ∀ r ∈ rs, r.WellFormed)
    (hheld : held = pre ++ encodeAll rs ++ post) (hpre : pre.length < 2 ^ 32)
    (hscan : indexCallback stack (File.new held) turns n pre.length =
      some (Decoded.ofRecords pre.length rs, stop))
    (hreads : ∀ d ∈ Decoded.ofRecords pre.length rs, d.indexAt ≤ (File.new held).fileOffset) :
    Reaches (File.new held).fileOffset pre.length rs := by
  induction rs generalizing pre n turns with
  | nil =>
    rcases indexCallback_inv hscan with ⟨-, hend⟩ | ⟨_, _, _, _, _, _, htrace⟩
    · exact ⟨by simp, hend, hpre⟩
    · cases htrace
  | cons r rs ih =>
    have hr := hwf r List.mem_cons_self
    have hsplit : held = pre ++ r.encode ++ (encodeAll rs ++ post) := by
      rw [hheld, encodeAll_cons]
      simp only [List.append_assoc]
    rcases indexCallback_inv hscan with ⟨htrace, -⟩ | ⟨turns', x, rest, hlt, hturn, hrest, htrace⟩
    · cases htrace
    · obtain ⟨hhead, htail⟩ := List.cons.inj htrace
      have hpos : u32 (pre.length + 4) = pre.length + 4 := (congrArg Decoded.indexAt hhead).symm
      have hoff := hreads _ List.mem_cons_self
      have hlen : pre.length + 4 + r.body.length = (pre ++ r.encode).length := by
        rw [List.length_append, IndexRecord.encode_eq hr.toFits, List.length_append, length_leBytes,
          Nat.add_assoc]
      rw [turn_reads (stack n) hr.toFits hsplit (Nat.le_of_lt hlt) (hpos.trans_le hoff), hpos,
        hlen] at hturn
      cases hturn
      rw [← htail] at hrest
      have hsmall := end_lt_of_indexCallback hr.toFits hpos hoff hrest
      rw [u32_eq hsmall, ← List.length_append] at hrest
      refine reaches_cons.mpr ⟨hoff, ?_⟩
      rw [← List.length_append]
      refine ih (fun x hx => hwf x (List.mem_cons_of_mem _ hx))
        (hsplit.trans (List.append_assoc ..).symm) hsmall hrest ?_
      intro d hd
      rw [List.length_append] at hd
      exact hreads d (List.mem_cons_of_mem _ hd)

end Scan

/-! ## Any file -/

/-- The turns of a scan of a file read nothing behind `file_offset_` and are those of the
complete records, each of which is decoded from where it is. -/
structure FindsRecords (held : Bytes) (trace : List Decoded) : Prop where
  reads : ∀ d ∈ trace, d.sizeAt ≤ (File.new held).fileOffset ∧
    d.indexAt ≤ (File.new held).fileOffset
  turns : trace = Decoded.ofRecords 0 (records held)
  table : ∀ t : Table, t.scan trace = replay t ((records held).map assignment)

theorem scan_ofRecords (rs : List IndexRecord) : ∀ (pos : Nat) (t : Table),
    t.scan (Decoded.ofRecords pos rs) = replay t (rs.map assignment) := by
  induction rs with
  | nil => exact fun _ _ => rfl
  | cons r rs ih => exact fun pos t => ih _ (t.apply (some r))

theorem Reaches.reads {fileOffset : Nat} :
    ∀ {pos : Nat}, Reaches fileOffset pos rs → ∀ d ∈ Decoded.ofRecords pos rs,
      d.sizeAt ≤ fileOffset ∧ d.indexAt ≤ fileOffset := by
  induction rs with
  | nil => exact fun _ d hd => absurd hd List.not_mem_nil
  | cons r rs ih =>
    intro pos h d hd
    obtain ⟨hfirst, hrest⟩ := reaches_cons.mp h
    rcases List.mem_cons.mp hd with rfl | hd
    · exact ⟨(Nat.le_add_right ..).trans hfirst, hfirst⟩
    · exact ih hrest d hd

/-- A scan of the complete records. -/
theorem findsRecords_of_reaches (stack : Nat → Mem)
    (h : Reaches (File.new held).fileOffset 0 (records held)) :
    indexCallback stack (File.new held) (records held).length 0 0 =
        some (Decoded.ofRecords 0 (records held), (encodeAll (records held)).length) ∧
      FindsRecords held (Decoded.ofRecords 0 (records held)) := by
  obtain ⟨⟨post, hpost⟩, hwf⟩ := records_spec held
  exact ⟨indexCallback_start hwf hpost h, h.reads, rfl, scan_ofRecords _ 0⟩

theorem reaches_of_findsRecords {stack : Nat → Mem} {trace : List Decoded} {turns pos : Nat}
    (hscan : indexCallback stack (File.new held) turns 0 0 = some (trace, pos))
    (h : FindsRecords held trace) : Reaches (File.new held).fileOffset 0 (records held) := by
  obtain ⟨⟨post, hpost⟩, hwf⟩ := records_spec held
  obtain ⟨hreads, rfl, -⟩ := h
  show Reaches (File.new held).fileOffset ([] : Bytes).length (records held)
  exact reaches_of_indexCallback hwf hpost (by decide) hscan fun d hd => (hreads d hd).2

/-- `IndexCallback` returns and has found the complete records of the file exactly if the size
of the file, in 32 bits, reaches behind the size field of each of them and not behind the last. -/
theorem indexCallback_sound_iff (stack : Nat → Mem) (held : Bytes) :
    (∃ turns trace pos, indexCallback stack (File.new held) turns 0 0 = some (trace, pos) ∧
      FindsRecords held trace) ↔ Reaches (u32 held.length) 0 (records held) := by
  constructor
  · rintro ⟨turns, trace, pos, hscan, h⟩
    exact reaches_of_findsRecords hscan h
  · intro h
    obtain ⟨hscan, hfinds⟩ := findsRecords_of_reaches stack h
    exact ⟨_, _, _, hscan, hfinds⟩

/-- An index record without its last byte. -/
def cutShort : Bytes := (IndexRecord.encode ⟨[1], 0, 0, 1, 1⟩).take 20

/-- An entry is made of a record that is cut short, the missing byte being what the stack
holds. -/
theorem indexCallback_cutShort : records cutShort = [] ∧
    indexCallback (fun _ _ => 0) (File.new cutShort) 1 0 0 =
      some ([⟨0, 4, some ⟨[1], 0, 0, 1, 1⟩⟩], 21) ∧
    ∀ stack : Nat → Mem, ¬ ∃ turns trace pos,
      indexCallback stack (File.new cutShort) turns 0 0 = some (trace, pos) ∧
        FindsRecords cutShort trace := by
  have hrecords : records cutShort = [] := by decide
  refine ⟨hrecords, by decide, ?_⟩
  rintro stack ⟨turns, trace, pos, hscan, h⟩
  have hends := (reaches_of_findsRecords hscan h).ends
  rw [hrecords] at hends
  revert hends
  decide

/-- A file that is nothing but records. -/
theorem reaches_encodeAll (hfits : ∀ r ∈ rs, r.Fits) (h : (encodeAll rs).length < 2 ^ 32) :
    Reaches (encodeAll rs).length 0 rs := by
  refine ⟨?_, (Nat.zero_add _).ge, (Nat.zero_add _).trans_lt h⟩
  rintro a r b rfl
  have hr := hfits r (by simp)
  rw [encodeAll_append, encodeAll_cons, List.length_append, List.length_append,
    IndexRecord.length_encode hr]
  omega

/-- Below 4 GiB: the file is nothing but its records. -/
theorem reaches_records_iff (h : held.length < 2 ^ 32) :
    Reaches (u32 held.length) 0 (records held) ↔ encodeAll (records held) = held := by
  obtain ⟨⟨post, hpost⟩, hwf⟩ := records_spec held
  have hlen := congrArg List.length hpost
  rw [List.length_append] at hlen
  rw [u32_eq h]
  constructor
  · intro hreaches
    have hends := hreaches.ends
    have hnil : post = [] := List.eq_nil_of_length_eq_zero (by omega)
    rw [hnil, List.append_nil] at hpost
    exact hpost.symm
  · intro heq
    have hreaches := reaches_encodeAll (fun r hr => (hwf r hr).toFits) (heq.symm ▸ h)
    rwa [heq] at hreaches

/-! ## A file that was written to its end -/

/-- The arguments of `AppendIndex`, the size of the key being its length. -/
structure IndexEntry where
  key : Bytes
  fileIndex : UInt32
  fileOffset : UInt32
  valueSize : UInt32

namespace IndexEntry

def record (e : IndexEntry) : IndexRecord :=
  ⟨e.key, e.fileIndex.toNat, e.fileOffset.toNat, e.key.length, e.valueSize.toNat⟩

theorem record_wellFormed {e : IndexEntry} (h : e.key.length + 20 < 2 ^ 32) :
    e.record.WellFormed := by
  refine ⟨⟨rfl, ?_, e.fileOffset.toNat_lt, e.valueSize.toNat_lt⟩, ?_⟩
  · show e.key.length + 16 < 2 ^ 32
    omega
  · have hindex : u32 e.record.fileIndex = e.record.fileIndex := u32_eq e.fileIndex.toNat_lt
    rw [IndexRecord.stored, hindex]

/-- An `AppendIndex` for each entry. -/
def appendAll (file : File) (es : List IndexEntry) : File :=
  es.foldl (fun file e => file.appendIndex e.record) file

theorem bytes_appendAll (es : List IndexEntry) : ∀ file : File,
    (appendAll file es).bytes = file.bytes ++ encodeAll (es.map record) := by
  induction es with
  | nil => exact fun file => (List.append_nil _).symm
  | cons e es ih =>
    intro file
    show (appendAll (file.appendIndex e.record) es).bytes = _
    rw [ih, File.bytes_appendIndex, List.map_cons, encodeAll_cons, List.append_assoc]

/-- An index file that was empty. -/
def log (es : List IndexEntry) : Bytes := (appendAll (File.new []) es).bytes

theorem log_eq (es : List IndexEntry) : log es = encodeAll (es.map record) :=
  bytes_appendAll es (File.new [])

/-- The size of the log is the sum of what the calls reserve. -/
theorem log_spec {es : List IndexEntry} (h : (es.map fun e => e.key.length + 20).sum < 2 ^ 32) :
    (∀ r ∈ es.map record, r.WellFormed) ∧ (log es).length < 2 ^ 32 := by
  have hwf : ∀ r ∈ es.map record, r.WellFormed := by
    intro r hr
    obtain ⟨e, he, rfl⟩ := List.mem_map.mp hr
    exact record_wellFormed ((List.le_sum_of_mem (List.mem_map_of_mem he)).trans_lt h)
  refine ⟨hwf, ?_⟩
  rw [log_eq, length_encodeAll fun r hr => (hwf r hr).toFits, List.map_map]
  exact h

end IndexEntry

/-- The entries of an index file below 4 GiB are scanned back in order, and the scan ends at the
end of the file. -/
theorem indexCallback_appended {es : List IndexEntry}
    (h : (es.map fun e => e.key.length + 20).sum < 2 ^ 32) (stack : Nat → Mem) :
    ∃ turns trace, indexCallback stack (File.new (IndexEntry.log es)) turns 0 0 =
        some (trace, (IndexEntry.log es).length) ∧
      trace.map Decoded.record = es.map fun e => some e.record := by
  obtain ⟨hwf, hsmall⟩ := IndexEntry.log_spec h
  have hreaches : Reaches (File.new (IndexEntry.log es)).fileOffset 0
      (es.map IndexEntry.record) := by
    show Reaches (u32 (IndexEntry.log es).length) 0 _
    rw [u32_eq hsmall, IndexEntry.log_eq]
    exact reaches_encodeAll (fun r hr => (hwf r hr).toFits) (IndexEntry.log_eq es ▸ hsmall)
  have hlog : IndexEntry.log es = encodeAll (es.map IndexEntry.record) ++ [] := by
    rw [List.append_nil, IndexEntry.log_eq]
  have hscan : indexCallback stack _ _ 0 0 = _ := indexCallback_start hwf hlog hreaches
  rw [← IndexEntry.log_eq] at hscan
  refine ⟨_, _, hscan, ?_⟩
  rw [Decoded.record_ofRecords, List.map_map]
  rfl

/-- Two entries with keys of different length; the stack buffer of the second scan is dirty. -/
theorem indexCallback_appended_two :
    ([⟨[1], 0, 0, 1⟩, ⟨[2, 3], 4, 5, 0⟩].map fun e : IndexEntry => e.key.length + 20).sum < 2 ^ 32 ∧
      ∃ turns trace, indexCallback (fun i _ => UInt8.ofNat i)
          (File.new (IndexEntry.log [⟨[1], 0, 0, 1⟩, ⟨[2, 3], 4, 5, 0⟩])) turns 0 0 =
            some (trace, (IndexEntry.log [⟨[1], 0, 0, 1⟩, ⟨[2, 3], 4, 5, 0⟩]).length) ∧
        trace.map Decoded.record =
          [⟨[1], 0, 0, 1⟩, ⟨[2, 3], 4, 5, 0⟩].map fun e : IndexEntry => some e.record :=
  ⟨by decide, indexCallback_appended (by decide) _⟩

end LogDirect.BitCask
