import LogDirect.Lib.Mem
import Mathlib.Data.List.TakeWhile

/-!
# The request wire format

`include/request.h` and the constants of `frontend/core.h`. A request is an
8-byte header — an 8-bit operation and a 24-bit key size sharing one word, then
a 32-bit value size — followed by the key and, for a write, the value. A reply
is a 32-bit status and a 32-bit value size followed by the value, laid over the
same bytes. The receiver reads the fields back from memory, so both are
modelled on bytes; a field read sees the written field as long as the field
fits its width.
-/

namespace LogDirect

open Lib

/-! ## Constants -/

/-- The ring buffer of one client (`core.h`). -/
def maxAsyncSize : Nat := 128 * 1024

/-- A batch is flushed once it reaches this many bytes (`core.h`). -/
def batchSize : Nat := 16 * 1024

/-- Two words in front of every buffer: the flag word and the tail word. -/
def ringHeader : Nat := 4 * 2

/-- The client's request buffer (`request.h`). -/
def maxRequest : Nat := 8192

/-- `sizeof(Request)` -/
def sizeofRequest : Nat := 8

/-- `sizeof(RequestReply)` -/
def sizeofReply : Nat := 8

/-- The flag a client leaves in the clerk's header word. -/
def clientDone : Nat := 0x7f7f7f7f

/-- The flag a clerk leaves in the client's header word. -/
def clerkDone : Nat := 0xf7f7f7f7

theorem clerkDone_ne_clientDone : clerkDone ≠ clientDone := by decide

/-! ## Operations and statuses -/

/-- `enum Operation` -/
inductive Operation
  | put | get | update | delete | close | sync | nop
  deriving DecidableEq, Repr

/-- The enumerator's value. -/
def Operation.code : Operation → Nat
  | .put => 0
  | .get => 1
  | .update => 2
  | .delete => 3
  | .close => 4
  | .sync => 5
  | .nop => 6

/-- The operation a header byte stands for, `none` for the `default` label of
the clerk's switch. -/
def Operation.ofCode : Nat → Option Operation
  | 0 => some .put
  | 1 => some .get
  | 2 => some .update
  | 3 => some .delete
  | 4 => some .close
  | 5 => some .sync
  | 6 => some .nop
  | _ => none

@[simp] theorem Operation.ofCode_code (op : Operation) : ofCode op.code = some op := by
  cases op <;> rfl

theorem Operation.code_lt (op : Operation) : op.code < 256 ^ 1 := by
  cases op <;> decide

/-- `enum RequestStatus`; only `SyncClerk` and `PMemClerk` answer `ERROR`, when `Put` fails. -/
inductive RequestStatus
  | ok | notFound | error
  deriving DecidableEq, Repr

def RequestStatus.code : RequestStatus → Nat
  | .ok => 0
  | .notFound => 1
  | .error => 2

/-! ## C strings -/

/-- `strlen`: the bytes before the first NUL. -/
def strlen (s : Bytes) : Nat := (s.takeWhile (· ≠ 0)).length

/-- A conversion to `uint16_t`. -/
def u16 (n : Nat) : Nat := n % 2 ^ 16

theorem strlen_eq {s : Bytes} (h : 0 ∉ s) : strlen s = s.length := by
  unfold strlen
  rw [List.takeWhile_eq_self_iff.mpr]
  intro b hb
  simp only [ne_eq, decide_not, Bool.not_eq_eq_eq_not, Bool.not_true, decide_eq_false_iff_not]
  rintro rfl
  exact h hb

/-- What is behind the first NUL is not measured. -/
theorem strlen_append_nul {s : Bytes} (h : 0 ∉ s) (t : Bytes) :
    strlen (s ++ 0 :: t) = s.length := by
  rw [← strlen_eq h, strlen, List.takeWhile_append, strlen]
  split
  · rw [List.takeWhile_cons_of_neg (by decide), List.append_nil]
    congr 1
    symm
    exact (List.takeWhile_prefix _).eq_of_length ‹_›
  · rfl

theorem u16_eq {n : Nat} (h : n < 2 ^ 16) : u16 n = n := Nat.mod_eq_of_lt h

/-! ## Request headers -/

namespace Request

/-- The bytes of `struct Request` up to `keyvalue`. -/
def header (op : Operation) (keySize valSize : Nat) : Bytes :=
  leBytes 1 op.code ++ leBytes 3 keySize ++ leBytes 4 valSize

/-- `request->op`, read at the start of a request area. -/
def op (m : Mem) : Option Operation := Operation.ofCode (leNat (m.read 0 1))

/-- `request->key_size` -/
def keySize (m : Mem) : Nat := leNat (m.read 1 3)

/-- `request->val_size` -/
def valSize (m : Mem) : Nat := leNat (m.read 4 4)

/-- `Request::Length`, which returns a `uint32_t` -/
def length (m : Mem) : Nat := (sizeofRequest + keySize m + valSize m) % 2 ^ 32

/-- The sum of the sizes is a `uint32_t`. -/
def NoWrap (m : Mem) : Prop := sizeofRequest + keySize m + valSize m < 2 ^ 32

theorem length_eq {m : Mem} (h : NoWrap m) : length m = sizeofRequest + keySize m + valSize m :=
  Nat.mod_eq_of_lt h

/-- The key that follows the header, as the clerk copies it out. -/
def key (m : Mem) : Bytes := m.read sizeofRequest (keySize m)

@[simp] theorem length_header (op : Operation) (ks vs : Nat) :
    (header op ks vs).length = sizeofRequest := by
  simp [header, sizeofRequest]

/-- The receiver reads back the operation the sender wrote. -/
theorem op_of_read {m : Mem} {o : Operation} (rest : Bytes)
    (h : m.read 0 (1 + rest.length) = leBytes 1 o.code ++ rest) : op m = some o := by
  have hop : m.read 0 1 = leBytes 1 o.code := by
    simpa using Mem.read_left (leBytes 1 o.code) rest (by simpa using h)
  unfold op
  rw [hop, leNat_leBytes_of_lt o.code_lt, Operation.ofCode_code]

/-- The receiver reads back every field of a header, and what follows it. -/
theorem fields_of_read {m : Mem} {o : Operation} {ks vs : Nat} (rest : Bytes)
    (h : m.read 0 (sizeofRequest + rest.length) = header o ks vs ++ rest)
    (hks : ks < 2 ^ 24) (hvs : vs < 2 ^ 32) :
    op m = some o ∧ keySize m = ks ∧ valSize m = vs ∧
      m.read sizeofRequest rest.length = rest := by
  have hhead : m.read 0 8 = header o ks vs := by
    simpa [sizeofRequest] using
      Mem.read_left (header o ks vs) rest (by simpa using h)
  have hrest : m.read sizeofRequest rest.length = rest := by
    simpa [sizeofRequest] using
      Mem.read_right (header o ks vs) rest (by simpa using h)
  refine ⟨?_, ?_, ?_, hrest⟩
  · refine op_of_read (leBytes 3 ks ++ leBytes 4 vs) ?_
    rw [← List.append_assoc]
    simpa [header] using hhead
  · have hk := Mem.read_sub hhead 1 3 (by omega)
    rw [Nat.zero_add] at hk
    have hk' : ((header o ks vs).drop 1).take 3 = leBytes 3 ks := by
      unfold header
      rw [List.append_assoc, List.drop_left' (by simp), List.take_left' (by simp)]
    unfold keySize
    rw [hk, hk', leNat_leBytes_of_lt (by norm_num at hks ⊢; exact hks)]
  · have hv := Mem.read_sub hhead 4 4 (by omega)
    rw [Nat.zero_add] at hv
    have hv' : ((header o ks vs).drop 4).take 4 = leBytes 4 vs := by
      unfold header
      rw [List.drop_left' (by simp), List.take_of_length_le (by simp)]
    unfold valSize
    rw [hv, hv', leNat_leBytes_of_lt (by norm_num at hvs ⊢; exact hvs)]

end Request

/-! ## Replies -/

namespace Reply

/-- The bytes of a `RequestReply` and its value. -/
def encode (status : RequestStatus) (valSize : Nat) (value : Bytes) : Bytes :=
  leBytes 4 status.code ++ leBytes 4 valSize ++ value

/-- `reply->status == RequestStatus::OK` -/
def isOk (m : Mem) : Bool := leNat (m.read 0 4) == RequestStatus.ok.code

/-- `reply->val_size` -/
def valSize (m : Mem) : Nat := leNat (m.read 4 4)

/-- The bytes the clerk sends back: the reply header and `val_size` bytes. -/
def wire (m : Mem) : Bytes := m.read 0 (sizeofReply + valSize m)

@[simp] theorem length_encode (st : RequestStatus) (n : Nat) (v : Bytes) :
    (encode st n v).length = sizeofReply + v.length := by
  simp only [encode, List.length_append, length_leBytes, sizeofReply]

/-- A reply reads back as written. -/
theorem fields_of_write (m : Mem) (st : RequestStatus) {n : Nat} {v : Bytes} (hn : n = v.length)
    (hlt : n < 2 ^ 32) :
    isOk (m.write 0 (encode st n v)) = decide (st = .ok) ∧
      valSize (m.write 0 (encode st n v)) = n ∧
      (m.write 0 (encode st n v)).read sizeofReply n = v := by
  have hlen : (encode st n v).length = 8 + v.length := length_encode st n v
  have hread : ∀ off k, off + k ≤ 8 + v.length →
      (m.write 0 (encode st n v)).read off k = ((encode st n v).drop off).take k := by
    intro off k hk
    have h : (m.write 0 (encode st n v)).read (0 + off) k = ((encode st n v).drop off).take k :=
      Mem.read_write_sub m (by omega)
    rwa [Nat.zero_add] at h
  refine ⟨?_, ?_, ?_⟩
  · have hst : ((encode st n v).drop 0).take 4 = leBytes 4 st.code := by
      unfold encode
      rw [List.append_assoc, List.drop_zero, List.take_left' (by simp)]
    unfold isOk
    rw [hread 0 4 (by omega), hst, leNat_leBytes_of_lt (by cases st <;> decide)]
    cases st <;> decide
  · have hsize : ((encode st n v).drop 4).take 4 = leBytes 4 n := by
      unfold encode
      rw [List.append_assoc, List.drop_left' (by simp), List.take_left' (by simp)]
    unfold valSize
    rw [hread 4 4 (by omega), hsize, leNat_leBytes_of_lt (by norm_num at hlt ⊢; exact hlt)]
  · have hval : ((encode st n v).drop sizeofReply).take n = v := by
      unfold encode
      rw [List.drop_left' (by simp [sizeofReply]), hn, List.take_length]
    rw [hread sizeofReply n (by simp only [sizeofReply]; omega), hval]

/-- A reply that was delivered reads as it was posted. -/
theorem wire_of_read {m m' : Mem} (h : m.read 0 (wire m').length = wire m') :
    wire m = wire m' := by
  have hlen : (wire m').length = sizeofReply + valSize m' := by simp [wire]
  have hsize : valSize m = valSize m' := by
    rw [hlen] at h
    have hword := Mem.read_sub_congr h 4 4 (by simp only [sizeofReply]; omega)
    rw [Nat.zero_add] at hword
    rw [valSize, hword, valSize]
  rw [wire, hsize, ← hlen, h]

end Reply

/-! ## What a client is asked to send

The arguments of `SendPut`, `SendUpdate`, `SendGet` and `SendDelete`. The
client copies them behind the two header words of its `local_buf_` without a
check of its own; a longer argument overruns the buffer, so the bound is part
of the argument's type. It depends on the front end. -/

/-- The bytes of a `local_buf_` behind its two header words. -/
structure Room where
  size : Nat
  le : size ≤ maxRequest

/-- `new uint8_t[MAX_REQUEST + RING_HEADER]`: `SyncClient`, `GroupClient` and `PMemClient`. -/
def Room.whole : Room := ⟨maxRequest, le_rfl⟩

/-- `new uint8_t[MAX_REQUEST]`: in a `HybridClient` the header words are part of it. -/
def Room.headed : Room := ⟨maxRequest - ringHeader, Nat.sub_le maxRequest ringHeader⟩

theorem Room.size_lt (b : Room) : b.size < 2 ^ 16 := b.le.trans_lt (by decide)

/-- A key as `SendGet` and `SendDelete` take it. -/
structure Key (b : Room) where
  bytes : Bytes
  cstr : 0 ∉ bytes
  fits : sizeofRequest + bytes.length ≤ b.size

/-- The arguments of `SendWrite`: a `PUT` or an `UPDATE` of a key and a value. -/
structure Record (b : Room) where
  op : Operation
  key : Bytes
  val : Bytes
  isWrite : op = .put ∨ op = .update
  key_cstr : 0 ∉ key
  val_cstr : 0 ∉ val
  fits : sizeofRequest + key.length + val.length ≤ b.size

/-- The `Send*` calls; `SendPut` and `SendUpdate` are `SendWrite` with the
operation in the record. -/
inductive Call (b : Room)
  | write (r : Record b)
  | get (k : Key b)
  | sync
  | delete (k : Key b)
  | close

/-- What a call returns to the caller. -/
inductive Ret
  | done
  | value (v : Option Bytes)
  | deleted (found : Bool)
  deriving DecidableEq

section Arguments

variable {b : Room}

theorem Key.strlen_eq (k : Key b) : strlen k.bytes = k.bytes.length := LogDirect.strlen_eq k.cstr

theorem Key.length_lt (k : Key b) : sizeofRequest + k.bytes.length < 2 ^ 16 :=
  k.fits.trans_lt b.size_lt

namespace Record

/-- The bytes a record takes in the ring and in the log. -/
def length (r : Record b) : Nat := sizeofRequest + r.key.length + r.val.length

/-- The part of a record the client also sends to the clerk's request area. -/
def metaPart (r : Record b) : Bytes := Request.header r.op r.key.length r.val.length ++ r.key

/-- The bytes of a record: header, key, value. -/
def encode (r : Record b) : Bytes := r.metaPart ++ r.val

@[simp] theorem length_metaPart (r : Record b) :
    r.metaPart.length = sizeofRequest + r.key.length := by
  simp [metaPart]

@[simp] theorem length_encode (r : Record b) : r.encode.length = r.length := by
  simp [encode, length]

/-- Behind the header of a record come its key and its value. -/
theorem drop_encode (r : Record b) : r.encode.drop sizeofRequest = r.key ++ r.val := by
  rw [encode, metaPart, List.append_assoc, List.drop_left' (by simp)]

theorem length_pos (r : Record b) : sizeofRequest ≤ r.length := by
  unfold length
  omega

theorem length_le (r : Record .headed) : r.length ≤ maxRequest - ringHeader := r.fits

theorem length_lt (r : Record b) : r.length < 2 ^ 16 := r.fits.trans_lt b.size_lt

theorem metaPart_lt (r : Record b) : sizeofRequest + r.key.length < 2 ^ 16 :=
  (Nat.le_add_right _ _).trans_lt r.length_lt

theorem key_lt (r : Record b) : r.key.length < 2 ^ 16 :=
  (Nat.le_add_left _ _).trans_lt r.metaPart_lt

theorem val_lt (r : Record b) : r.val.length < 2 ^ 16 :=
  (Nat.le_add_left _ _).trans_lt r.length_lt

/-- A record at the start of a memory reads back. -/
theorem fields_of_read (r : Record b) {m : Mem} (rest : Bytes)
    (h : m.read 0 (r.encode ++ rest).length = r.encode ++ rest) :
    Request.key m = r.key ∧
      m.read (sizeofRequest + Request.keySize m) (Request.valSize m) = r.val ∧
      Request.length m = r.length := by
  have henc : r.encode ++ rest =
      Request.header r.op r.key.length r.val.length ++ (r.key ++ r.val ++ rest) := by
    simp [encode, metaPart]
  rw [henc, List.length_append, Request.length_header] at h
  obtain ⟨-, hks, hvs, hrest⟩ := Request.fields_of_read _ h
    (r.key_lt.trans (by decide)) (r.val_lt.trans (by decide))
  refine ⟨?_, ?_, ?_⟩
  · rw [Request.key, hks]
    rw [List.append_assoc, List.length_append] at hrest
    exact Mem.read_left _ _ hrest
  · rw [hks, hvs]
    exact Mem.read_mid _ _ _ hrest
  · rw [Request.length, hks, hvs]
    exact Nat.mod_eq_of_lt (r.length_lt.trans (by decide))

end Record

/-! ## Lengths computed by the client

The locals of `SendWrite` (`hybrid.cc` lines 52–55); the clients without a ring
have no `meta_len`. -/

def keyLen (r : Record b) : Nat := u16 (strlen r.key)

def valLen (r : Record b) : Nat := u16 (strlen r.val)

def metaLen (r : Record b) : Nat := u16 (sizeofRequest + keyLen r)

def totalLen (r : Record b) : Nat := u16 (sizeofRequest + keyLen r + valLen r)

/-- A record that fits the buffer is not truncated by the 16-bit lengths. -/
@[simp] theorem keyLen_eq (r : Record b) : keyLen r = r.key.length := by
  rw [keyLen, strlen_eq r.key_cstr, u16_eq r.key_lt]

@[simp] theorem valLen_eq (r : Record b) : valLen r = r.val.length := by
  rw [valLen, strlen_eq r.val_cstr, u16_eq r.val_lt]

@[simp] theorem metaLen_eq (r : Record b) : metaLen r = r.metaPart.length := by
  rw [metaLen, keyLen_eq, Record.length_metaPart, u16_eq r.metaPart_lt]

@[simp] theorem totalLen_eq (r : Record b) : totalLen r = r.length := by
  rw [totalLen, keyLen_eq, valLen_eq]
  exact u16_eq r.length_lt

/-- What a call returns, read from the message area once the reply is there. -/
def Call.ret : Call b → Mem → Ret
  | .get _, m => .value (if Reply.isOk m then some (m.read sizeofReply (Reply.valSize m)) else none)
  | .delete _, m => .deleted (Reply.isOk m)
  | _, _ => .done

/-- A call reads the same answer at both ends. -/
theorem Call.ret_of_wire (q : Call b) {m m' : Mem}
    (h : m.read 0 (Reply.wire m').length = Reply.wire m') : q.ret m = q.ret m' := by
  have hlen : (Reply.wire m').length = sizeofReply + Reply.valSize m' := by simp [Reply.wire]
  rw [hlen] at h
  unfold Reply.wire at h
  have h4 : m.read 0 4 = m'.read 0 4 :=
    Mem.read_sub_congr h 0 4 (by simp only [sizeofReply]; omega)
  have h8 : m.read 4 4 = m'.read 4 4 := by
    have h' := Mem.read_sub_congr h 4 4 (by simp only [sizeofReply]; omega)
    rwa [Nat.zero_add] at h'
  have hok : Reply.isOk m = Reply.isOk m' := by
    unfold Reply.isOk
    rw [h4]
  have hsize : Reply.valSize m = Reply.valSize m' := by
    unfold Reply.valSize
    rw [h8]
  cases q with
  | get k =>
    have hval : m.read sizeofReply (Reply.valSize m') =
        m'.read sizeofReply (Reply.valSize m') := by
      have h' := Mem.read_sub_congr h sizeofReply (Reply.valSize m') (Nat.le_refl _)
      rwa [Nat.zero_add] at h'
    simp only [Call.ret, hok, hsize, hval]
  | delete k => simp only [Call.ret, hok]
  | write r => rfl
  | sync => rfl
  | close => rfl

end Arguments

end LogDirect
