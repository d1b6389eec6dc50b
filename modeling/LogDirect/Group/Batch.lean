import LogDirect.Group.Model
import Mathlib.Algebra.Order.BigOperators.Group.List

/-!
# `BuildBatchGroup`

The batch holds the requests of the first writers of the queue, one after the
other; its keys and index entries select their pairs.
-/

namespace LogDirect.Group

open Lib
open Sync (requestVal)

variable {ι : Type}

namespace WriteBatch

/-- The pairs that `PutBatch` finds in the batch. -/
def entries (b : WriteBatch) : List (Bytes × Bytes) :=
  (b.keys.zip b.dbIndexes).map fun p => (p.1, DB.batchValue b.bytes p.2)

/-- The pairs that the index entries select from the batch. -/
def selected (b : WriteBatch) : List (Bytes × Bytes) :=
  b.dbIndexes.map fun e => ((b.bytes.drop e.fileOffset).take e.keySize, DB.batchValue b.bytes e)

/-- There is an entry for each key, and it lies within the batch. -/
structure Wf (b : WriteBatch) : Prop where
  length : b.keys.length = b.dbIndexes.length
  within : ∀ e ∈ b.dbIndexes, e.fileOffset + e.keySize + e.valueSize ≤ b.batchLength

theorem clear_wf (b : WriteBatch) : b.clear.Wf := ⟨rfl, by simp [clear]⟩

@[simp] theorem length_bytes (b : WriteBatch) : b.bytes.length = b.batchLength := by
  simp [bytes]

/-- The requests lie one after the other. -/
theorem bytes_append (b : WriteBatch) (m : Mem) :
    (b.append m).bytes = b.bytes ++ m.read 0 (Request.length m) := by
  have hlen : (m.read 0 (Request.length m)).length = Request.length m := by simp
  show (b.buffer.write b.batchLength (m.read 0 (Request.length m))).read 0
    (b.batchLength + Request.length m) = _
  have hnew := Mem.read_write b.buffer b.batchLength (m.read 0 (Request.length m))
  rw [hlen] at hnew
  rw [Mem.read_add, Mem.read_write_of_disjoint _ (.inl (by omega)), Nat.zero_add, hnew]
  rfl

/-- An entry within a batch does not see what follows. -/
theorem batchValue_append {e : DBIndex} {bs : Bytes} (bs' : Bytes)
    (h : e.fileOffset + e.keySize + e.valueSize ≤ bs.length) :
    DB.batchValue (bs ++ bs') e = DB.batchValue bs e := by
  unfold DB.batchValue
  rw [List.drop_append_of_le_length (by omega), List.take_append_of_le_length]
  rw [List.length_drop]
  omega

variable {m : Mem}

theorem append_wf {b : WriteBatch} (h : b.Wf) (hm : Request.NoWrap m) : (b.append m).Wf := by
  refine ⟨by simp [append, h.length], ?_⟩
  intro e he
  show _ ≤ b.batchLength + Request.length m
  rcases List.mem_append.mp he with he | he
  · exact Nat.le_add_right_of_le (h.within e he)
  · rw [List.mem_singleton.mp he]
    show b.batchLength + sizeofRequest + Request.keySize m + Request.valSize m ≤ _
    rw [Request.length_eq hm]
    omega

/-- The entry of the last request selects its value. -/
theorem batchValue_self (b : WriteBatch) (hm : Request.NoWrap m) :
    DB.batchValue (b.append m).bytes ⟨.file 0 (b.batchLength + sizeofRequest),
      Request.keySize m, Request.valSize m⟩ = requestVal m := by
  have hval := Mem.read_sub (Eq.refl (m.read 0 (Request.length m)))
    (sizeofRequest + Request.keySize m) (Request.valSize m) (Request.length_eq hm).ge
  rw [Nat.zero_add] at hval
  show ((b.append m).bytes.drop (b.batchLength + sizeofRequest + Request.keySize m)).take _ = _
  rw [bytes_append, Nat.add_assoc, ← length_bytes b, List.drop_length_add_append]
  exact hval.symm

theorem entries_eq (b : WriteBatch) : b.entries = b.keys.zip (b.selected.map Prod.snd) := by
  unfold entries selected
  rw [List.map_map, List.zip_map_right]
  rfl

/-- The entry of a request selects its key and its value. -/
theorem selected_append {b : WriteBatch} (h : b.Wf) (hm : Request.NoWrap m) :
    (b.append m).selected = b.selected ++ [(Request.key m, requestVal m)] := by
  have hold : b.dbIndexes.map (fun e => (((b.append m).bytes.drop e.fileOffset).take e.keySize,
      DB.batchValue (b.append m).bytes e)) = b.selected := by
    refine List.map_congr_left ?_
    intro e he
    have hwithin := h.within e he
    rw [← length_bytes] at hwithin
    rw [bytes_append, batchValue_append _ hwithin, List.drop_append_of_le_length (by omega),
      List.take_append_of_le_length]
    rw [List.length_drop]
    omega
  have hkey : ((b.append m).bytes.drop (b.batchLength + sizeofRequest)).take (Request.keySize m) =
      Request.key m := by
    have hkey := Mem.read_sub (Eq.refl (m.read 0 (Request.length m))) sizeofRequest
      (Request.keySize m) (by rw [Request.length_eq hm]; omega)
    rw [Nat.zero_add] at hkey
    rw [bytes_append, ← length_bytes b, List.drop_length_add_append]
    exact hkey.symm
  unfold selected append
  rw [List.map_append]
  exact congrArg₂ (· ++ ·) hold (congrArg₂ (fun k v => [(k, v)]) hkey (batchValue_self b hm))

end WriteBatch

/-! ## The loop -/

/-- Requests taken in one after the other. -/
def gather (request : ι → Mem) (b : WriteBatch) (ws : List ι) : WriteBatch :=
  ws.foldl (fun b w => b.append (request w)) b

theorem gather_keys (request : ι → Mem) (b : WriteBatch) (ws : List ι) :
    (gather request b ws).keys = b.keys ++ ws.map fun w => Request.key (request w) := by
  induction ws generalizing b with
  | nil => simp [gather]
  | cons w ws ih =>
    rw [gather, List.foldl_cons, ← gather, ih]
    simp [WriteBatch.append]

variable {request : ι → Mem} {b : WriteBatch} {ws : List ι}

theorem gather_selected (h : b.Wf) (hws : ∀ w ∈ ws, Request.NoWrap (request w)) :
    (gather request b ws).selected =
      b.selected ++ ws.map fun w => (Request.key (request w), requestVal (request w)) := by
  induction ws generalizing b with
  | nil => simp [gather]
  | cons w ws ih =>
    have hw := hws w List.mem_cons_self
    rw [gather, List.foldl_cons, ← gather, ih (WriteBatch.append_wf h hw)
      fun x hx => hws x (List.mem_cons_of_mem _ hx), WriteBatch.selected_append h hw]
    simp

theorem gather_entries (h : b.Wf) (hws : ∀ w ∈ ws, Request.NoWrap (request w)) :
    (gather request b ws).entries =
      b.entries ++ ws.map fun w => (Request.key (request w), requestVal (request w)) := by
  have hlen : b.keys.length = (b.selected.map Prod.snd).length := by
    rw [List.length_map, WriteBatch.selected, List.length_map, h.length]
  rw [WriteBatch.entries_eq, gather_keys, gather_selected h hws, List.map_append,
    List.zip_append hlen, ← WriteBatch.entries_eq, List.map_map]
  exact congrArg _ List.zip_map'

/-- The requests of the batch lie one after the other. -/
theorem gather_bytes (request : ι → Mem) (b : WriteBatch) (ws : List ι) :
    (gather request b ws).bytes =
      b.bytes ++ ws.flatMap fun w => (request w).read 0 (Request.length (request w)) := by
  induction ws generalizing b with
  | nil => simp [gather]
  | cons w ws ih =>
    rw [gather, List.foldl_cons, ← gather, ih, WriteBatch.bytes_append, List.flatMap_cons,
      List.append_assoc]

/-- What the requests add to `batch_length`. -/
def total (request : ι → Mem) (ws : List ι) : Nat :=
  (ws.map fun w => Request.length (request w)).sum

theorem gather_batchLength (request : ι → Mem) (b : WriteBatch) (ws : List ι) :
    (gather request b ws).batchLength = b.batchLength + total request ws := by
  induction ws generalizing b with
  | nil => rfl
  | cons w ws ih =>
    rw [gather, List.foldl_cons, ← gather, ih, total, total, List.map_cons, List.sum_cons,
      ← Nat.add_assoc]
    rfl

/-- The loop takes in the first writers of the queue: one at least, and another one as long as
the batch is not large enough. -/
theorem buildLoop_spec (request : ι → Mem) (ws : List ι) : ∀ (b : WriteBatch) (last : Option ι),
    ∃ grp rest, ws = grp ++ rest ∧ (ws ≠ [] → grp ≠ []) ∧
      buildLoop request b last ws = (gather request b grp, grp.getLast?.or last) ∧
      (∀ pre w post, grp = pre ++ w :: post →
        pre = [] ∨ (gather request b pre).batchLength < batchSize) ∧
      (rest = [] ∨ batchSize ≤ (gather request b grp).batchLength) := by
  induction ws with
  | nil =>
    intro b last
    exact ⟨[], [], rfl, id, rfl, by simp, .inl rfl⟩
  | cons w ws ih =>
    intro b last
    rw [buildLoop]
    split
    · -- the batch is large enough
      rename_i hlarge
      refine ⟨[w], ws, rfl, fun _ => by simp, rfl, ?_, .inr hlarge⟩
      intro pre x post hgrp
      cases pre with
      | nil => exact .inl rfl
      | cons y pre => simp at hgrp
    · rename_i hsmall
      obtain ⟨grp, rest, hws, -, hloop, hpre, hrest⟩ := ih (b.append (request w)) (some w)
      refine ⟨w :: grp, rest, by rw [hws, List.cons_append], fun _ => by simp, ?_, ?_, hrest⟩
      · rw [hloop, List.getLast?_cons]
        cases grp.getLast? with
        | none => rfl
        | some x => rfl
      · intro pre x post hgrp
        cases pre with
        | nil => exact .inl rfl
        | cons y pre =>
          obtain ⟨rfl, htail⟩ := List.cons.inj hgrp
          refine .inr ?_
          rcases hpre pre x post htail with rfl | hlt
          · exact Nat.not_le.mp hsmall
          · exact hlt

/-- `BuildBatchGroup` takes in a group of the first writers. -/
theorem buildBatchGroup_eq (request : ι → Mem) (batch : WriteBatch) (queue : List ι) :
    ∃ grp rest, queue = grp ++ rest ∧ (queue ≠ [] → grp ≠ []) ∧
      buildBatchGroup request batch queue = (gather request batch.clear grp, grp.getLast?) ∧
      (∀ pre w post, grp = pre ++ w :: post → pre = [] ∨ total request pre < batchSize) ∧
      (rest = [] ∨ batchSize ≤ total request grp) := by
  obtain ⟨grp, rest, hqueue, hne, hloop, hpre, hrest⟩ :=
    buildLoop_spec request queue batch.clear none
  have hlen : ∀ ws, (gather request batch.clear ws).batchLength = total request ws := by
    intro ws
    rw [gather_batchLength]
    exact Nat.zero_add _
  simp only [hlen] at hpre hrest
  rw [Option.or_none] at hloop
  exact ⟨grp, rest, hqueue, hne, hloop, hpre, hrest⟩

/-- The group that `BuildBatchGroup` leaves in the batch. -/
theorem buildBatchGroup_spec {batch : WriteBatch} {queue : List ι} {w : ι}
    (h : buildBatchGroup request batch queue = (b, some w)) : ∃ grp rest, queue = grp ++ rest ∧
      b.keys.length = grp.length ∧ grp.getLast? = some w ∧
      ((∀ j ∈ grp, Request.NoWrap (request j)) →
        b.entries = grp.map fun j => (Request.key (request j), requestVal (request j))) := by
  obtain ⟨grp, rest, hqueue, -, hbuild, -⟩ := buildBatchGroup_eq request batch queue
  rw [hbuild] at h
  obtain ⟨rfl, hlast⟩ := Prod.mk.inj h
  refine ⟨grp, rest, hqueue, ?_, hlast, ?_⟩
  · rw [gather_keys]
    simp [WriteBatch.clear]
  · intro hgrp
    rw [gather_entries (WriteBatch.clear_wf batch) hgrp]
    rfl

/-- A queue that is not empty has a group. -/
theorem buildBatchGroup_some (request : ι → Mem) (batch : WriteBatch) {queue : List ι}
    (h : queue ≠ []) : ∃ b w, buildBatchGroup request batch queue = (b, some w) := by
  obtain ⟨grp, rest, -, hne, hbuild, -⟩ := buildBatchGroup_eq request batch queue
  exact ⟨_, _, hbuild.trans (congrArg _ (List.getLast?_eq_some_getLast (hne h)))⟩

/-! ## The group and its batch -/

/-- A request: its header, its key and its value. -/
def requestBytes (m : Mem) : Bytes :=
  m.read 0 (sizeofRequest + Request.keySize m + Request.valSize m)

/-- The batch of the first `n` writers of a queue, `n` being the smallest number of them whose
requests fill it. -/
structure Faithful (request : ι → Mem) (queue : List ι) (b : WriteBatch) (lastWriter : Option ι)
    (n : Nat) : Prop where
  pos : 0 < n
  le : n ≤ queue.length
  last : lastWriter = queue[n - 1]?
  smallest : ∀ k, 0 < k → k < n → total request (queue.take k) < batchSize
  filled : n = queue.length ∨ batchSize ≤ total request (queue.take n)
  bytes : b.bytes = (queue.take n).flatMap fun w => requestBytes (request w)
  -- behind every `memcpy`
  room : ∀ k ≤ n, total request (queue.take k) ≤ batchSize + maxRequest - 1
  keys : b.keys = (queue.take n).map fun w => Request.key (request w)
  selected : b.selected =
    (queue.take n).map fun w => (Request.key (request w), requestVal (request w))

theorem total_append (request : ι → Mem) (ws ws' : List ι) :
    total request (ws ++ ws') = total request ws + total request ws' := by
  rw [total, List.map_append, List.sum_append, total, total]

/-- `Length` is never more than the sum of the sizes; if it is not less in all, it wraps for no
request. -/
theorem noWrap_of_total
    (h : (ws.map fun w => (requestBytes (request w)).length).sum ≤ total request ws) :
    ∀ w ∈ ws, Request.NoWrap (request w) := by
  have hle : ∀ w, Request.length (request w) ≤ (requestBytes (request w)).length := by
    intro w
    rw [requestBytes, Mem.length_read]
    exact Nat.mod_le _ _
  induction ws with
  | nil => exact fun w hw => absurd hw List.not_mem_nil
  | cons w ws ih =>
    rw [total, List.map_cons, List.map_cons, List.sum_cons, List.sum_cons] at h
    have hrest : total request ws ≤ _ := List.sum_le_sum fun w (_ : w ∈ ws) => hle w
    have hw := hle w
    unfold total at ih hrest
    intro x hx
    rcases List.mem_cons.mp hx with rfl | hx
    · have heq : (requestBytes (request x)).length ≤ Request.length (request x) := by omega
      rw [requestBytes, Mem.length_read] at heq
      exact heq.trans_lt (Nat.mod_lt _ (by decide))
    · exact ih (by omega) x hx

section Faithful

variable {request : ι → Mem} {queue grp rest : List ι}

/-- A proper part of the group is short of the batch size. -/
theorem total_take_lt (hpre : ∀ pre w post, grp = pre ++ w :: post → pre = [] ∨
    total request pre < batchSize) {k : Nat} (hk : k < grp.length) :
    total request (grp.take k) < batchSize := by
  have hsplit : grp = grp.take k ++ grp[k] :: grp.drop (k + 1) := by
    rw [List.getElem_cons_drop, List.take_append_drop]
  rcases hpre _ _ _ hsplit with hnil | hlt
  · rw [hnil]
    show 0 < batchSize
    decide
  · exact hlt

/-- The batch of a group whose lengths do not wrap. -/
theorem faithful_of_noWrap (batch : WriteBatch) (hne : grp ≠ [])
    (hlen : ∀ w ∈ grp ++ rest, Request.length (request w) ≤ maxRequest)
    (hpre : ∀ pre w post, grp = pre ++ w :: post → pre = [] ∨ total request pre < batchSize)
    (hrest : rest = [] ∨ batchSize ≤ total request grp)
    (hwrap : ∀ w ∈ grp, Request.NoWrap (request w)) :
    Faithful request (grp ++ rest) (gather request batch.clear grp) grp.getLast? grp.length := by
  have htake : ∀ k ≤ grp.length, (grp ++ rest).take k = grp.take k := fun k hk =>
    List.take_append_of_le_length hk
  have hall : (grp ++ rest).take grp.length = grp := List.take_left' rfl
  refine ⟨List.length_pos_of_ne_nil hne, ?_, ?_, ?_, ?_, ?_, ?_, ?_, ?_⟩
  · rw [List.length_append]
    exact Nat.le_add_right ..
  · rw [List.getLast?_eq_getElem?, List.getElem?_append_left]
    exact Nat.sub_lt (List.length_pos_of_ne_nil hne) Nat.one_pos
  · intro k _ hk
    rw [htake k (Nat.le_of_lt hk)]
    exact total_take_lt hpre hk
  · rw [hall]
    refine hrest.imp_left ?_
    rintro rfl
    rw [List.append_nil]
  · rw [gather_bytes, hall]
    show [] ++ grp.flatMap _ = _
    rw [List.nil_append, List.flatMap_def, List.flatMap_def]
    refine congrArg List.flatten (List.map_congr_left ?_)
    intro w hw
    rw [Request.length_eq (hwrap w hw)]
    rfl
  · intro k hk
    rw [htake k hk]
    cases k with
    | zero => exact Nat.zero_le _
    | succ k =>
      have hone := hlen grp[k] (List.mem_append_left _ (List.getElem_mem hk))
      have hlt := total_take_lt hpre hk
      rw [List.take_succ_eq_append_getElem hk, total_append]
      simp only [total, List.map_cons, List.map_nil, List.sum_cons, List.sum_nil] at hlt ⊢
      omega
  · rw [gather_keys, hall]
    rfl
  · rw [gather_selected (WriteBatch.clear_wf batch) hwrap, hall]
    rfl

/-- A request that comes before the batch is full is in the group. -/
theorem Faithful.mem_take {b : WriteBatch} {last : Option ι} {n : Nat}
    (h : Faithful request queue b last n) {pre post : List ι} {w : ι}
    (hqueue : queue = pre ++ w :: post) (hpre : pre = [] ∨ total request pre < batchSize) :
    w ∈ queue.take n := by
  have hlt : pre.length < n := by
    by_contra hge
    have hge := Nat.not_lt.mp hge
    have hne : pre ≠ [] := List.ne_nil_of_length_pos (h.pos.trans_le hge)
    rcases h.filled with hall | hfull
    · rw [hqueue, List.length_append, List.length_cons] at hall
      omega
    · have hsplit := total_append request (pre.take n) (pre.drop n)
      rw [hqueue, List.take_append_of_le_length hge] at hfull
      rw [List.take_append_drop] at hsplit
      have := hpre.resolve_left hne
      omega
  obtain ⟨k, hk⟩ : ∃ k, n - pre.length = k + 1 := ⟨n - pre.length - 1, by omega⟩
  rw [hqueue, List.take_append, hk]
  exact List.mem_append_right _ List.mem_cons_self

/-- The batch is faithful exactly if `Length` wraps for no request that is taken in. -/
theorem buildBatchGroup_faithful_iff (batch : WriteBatch) (hne : queue ≠ [])
    (hlen : ∀ w ∈ queue, Request.length (request w) ≤ maxRequest) :
    (∃ n, Faithful request queue (buildBatchGroup request batch queue).1
      (buildBatchGroup request batch queue).2 n) ↔
        ∀ pre w post, queue = pre ++ w :: post → pre = [] ∨ total request pre < batchSize →
          Request.NoWrap (request w) := by
  obtain ⟨grp, rest, rfl, hgrp, hbuild, hpre, hrest⟩ := buildBatchGroup_eq request batch queue
  rw [hbuild]
  constructor
  · rintro ⟨n, h⟩ pre w post hqueue hshort
    have hn : grp.length = n := by
      have hkeys := congrArg List.length h.keys
      have hle := h.le
      rw [gather_keys, List.length_map, List.length_take] at hkeys
      simp only [WriteBatch.clear, List.nil_append, List.length_map] at hkeys
      omega
    have htake : (grp ++ rest).take n = grp := List.take_left' hn
    have hbytes := congrArg List.length h.bytes
    rw [htake, WriteBatch.length_bytes, gather_batchLength, List.length_flatMap] at hbytes
    have hmem := h.mem_take hqueue hshort
    rw [htake] at hmem
    exact noWrap_of_total (hbytes.ge.trans_eq (Nat.zero_add _)) w hmem
  · intro h
    refine ⟨grp.length, faithful_of_noWrap batch (hgrp hne) hlen hpre hrest ?_⟩
    intro w hw
    obtain ⟨pre, post, hsplit⟩ := List.append_of_mem hw
    refine h pre w (post ++ rest) ?_ (hpre pre w post hsplit)
    rw [hsplit, List.append_assoc, List.cons_append]

/-- The batch is faithful if every request has at most `MAX_REQUEST` bytes. -/
theorem buildBatchGroup_faithful (batch : WriteBatch) (hne : queue ≠ [])
    (hlen : ∀ w ∈ queue, sizeofRequest + Request.keySize (request w) +
      Request.valSize (request w) ≤ maxRequest) :
    ∃ n, Faithful request queue (buildBatchGroup request batch queue).1
      (buildBatchGroup request batch queue).2 n := by
  have hwrap : ∀ w ∈ queue, Request.NoWrap (request w) := fun w hw =>
    (hlen w hw).trans_lt (by decide)
  refine (buildBatchGroup_faithful_iff batch hne ?_).mpr ?_
  · intro w hw
    rw [Request.length_eq (hwrap w hw)]
    exact hlen w hw
  · rintro pre w post rfl -
    exact hwrap w (List.mem_append_right _ List.mem_cons_self)

end Faithful

/-- The requests of four writers, by turns of 8192 bytes and of 10. -/
def turnsRequest (w : Nat) : Mem :=
  Mem.write (fun _ => 0) 0 (Request.header .put 1 (if w % 2 = 0 then 8183 else 1) ++ [1])

/-- The third writer fills the batch: the fourth one is left in the queue. -/
theorem buildBatchGroup_faithful_turns :
    (∀ w ∈ [0, 1, 2, 3], sizeofRequest + Request.keySize (turnsRequest w) +
      Request.valSize (turnsRequest w) ≤ maxRequest) ∧
    Faithful turnsRequest [0, 1, 2, 3]
      (buildBatchGroup turnsRequest ⟨0, [], [], fun _ => 0⟩ [0, 1, 2, 3]).1
      (buildBatchGroup turnsRequest ⟨0, [], [], fun _ => 0⟩ [0, 1, 2, 3]).2 3 := by
  have hlen : ∀ w ∈ [0, 1, 2, 3], sizeofRequest + Request.keySize (turnsRequest w) +
      Request.valSize (turnsRequest w) ≤ maxRequest := by decide
  obtain ⟨n, h⟩ := buildBatchGroup_faithful ⟨0, [], [], fun _ => 0⟩ (by decide) hlen
  have hfull : ¬ total turnsRequest [0, 1, 2] < batchSize := by decide
  have hshort : ∀ k ≤ 2, ¬ batchSize ≤ total turnsRequest ([0, 1, 2, 3].take k) := by decide
  have hn : n = 3 := by
    by_contra hne
    rcases Nat.lt_or_gt_of_ne hne with hlt | hgt
    · rcases h.filled with hall | hfilled
      · exact absurd (hall ▸ hlt) (by decide)
      · exact hshort n (by omega) hfilled
    · exact hfull (h.smallest 3 (by decide) hgt)
  exact ⟨hlen, hn ▸ h⟩

/-- A request without a key whose value size makes `Length` wrap to zero. -/
def wrappedRequest : Mem := Mem.write (fun _ => 0) 0 (Request.header .put 0 0xfffffff8)

/-- The batch of this request is empty. -/
theorem buildBatchGroup_wrapped :
    Request.length wrappedRequest ≤ maxRequest ∧
      (buildBatchGroup (fun _ => wrappedRequest) ⟨0, [], [], fun _ => 0⟩ [()]).1.bytes = [] ∧
      ¬ ∃ n, Faithful (fun _ => wrappedRequest) [()]
        (buildBatchGroup (fun _ => wrappedRequest) ⟨0, [], [], fun _ => 0⟩ [()]).1
        (buildBatchGroup (fun _ => wrappedRequest) ⟨0, [], [], fun _ => 0⟩ [()]).2 n := by
  have hbytes : (buildBatchGroup (fun _ => wrappedRequest) ⟨0, [], [], fun _ => 0⟩ [()]).1.bytes =
      [] := by decide
  refine ⟨by decide, hbytes, ?_⟩
  rintro ⟨n, h⟩
  have hn : n = 1 := Nat.le_antisymm h.le h.pos
  have hlen := congrArg List.length h.bytes
  rw [hbytes, hn, List.take_succ_cons, List.take_nil, List.flatMap_singleton, requestBytes,
    Mem.length_read] at hlen
  revert hlen
  decide

/-! ## The loop behind `PutBatch` -/

/-- It takes the group off the queue and marks all of it but the leader. -/
theorem completeLoop_eq [DecidableEq ι] (i w : ι) (rest : List ι) : ∀ {grp : List ι},
    (grp ++ rest).Nodup → grp.getLast? = some w →
    completeLoop i w (grp ++ rest) = some (rest, grp.filter fun j => j ≠ i) := by
  intro grp
  induction grp with
  | nil =>
    intro _ hlast
    cases hlast
  | cons j grp ih =>
    intro hnodup hlast
    rw [List.cons_append] at hnodup ⊢
    rw [completeLoop]
    have hmark : (j :: grp).filter (fun j => j ≠ i) =
        (if j = i then [] else [j]) ++ grp.filter fun j => j ≠ i := by
      by_cases hj : j = i
      · simp [hj]
      · simp [hj]
    cases grp with
    | nil =>
      have hw : j = w := Option.some.inj hlast
      rw [if_pos hw, hmark]
      simp
    | cons j' grp =>
      rw [List.getLast?_cons_cons] at hlast
      have hne : j ≠ w := by
        rintro rfl
        have hmem := List.mem_of_getLast? hlast
        exact (List.nodup_cons.mp hnodup).1 (List.mem_append_left _ hmem)
      rw [if_neg hne, ih (List.nodup_cons.mp hnodup).2 hlast, hmark]
      rfl

end LogDirect.Group
