import LogDirect.Hybrid.Calls

/-!
# What a client reads

The answers of a client's calls, compared with a map: a write sets a key, a
delete clears it, a read returns what is there. With one client `im_index_`
names exactly the newest record of each key in the open batch (`openIndex`), so
what a `GET` finds is the store with the open batch on top (`lookup_open`).
Reads therefore see the client's writes (`read_your_writes`). `DELETE` only
reaches the store, so it is faithful exactly when the key is not in the open
batch (`faithful_iff`).
-/

namespace LogDirect.Hybrid

open Lib TSys Conn

/-! ## The map a client should see -/

/-- What a call changes. -/
def Call.mutation : Call → List (Bytes × Option Bytes)
  | .write r => [(r.key, some r.val)]
  | .delete k => [(k.bytes, none)]
  | _ => []

/-- What a call should return when the store is `db`. -/
def Call.answer (db : DB) : Call → Ret
  | .get k => .value (db k.bytes)
  | .delete k => .deleted (db k.bytes).isSome
  | _ => .done

/-- The store after the calls of `h`: each key has the value of its last write. -/
def storeAfter (db : DB) (h : List (Call × Ret)) : DB :=
  replay db (h.flatMap fun p => p.1.mutation)

/-- Every call has returned what the store after the calls before it says. -/
def Conforms (db : DB) (h : List (Call × Ret)) : Prop :=
  ∀ (i : Nat) (q : Call) (ret : Ret), h[i]? = some (q, ret) →
    ret = q.answer (storeAfter db (h.take i))

variable {db : DB} {q : Call} {k : Bytes} {w : Stored} {sh sh' : Shared} {s s' s₀ : Conn × Shared}
  {c c' : Conn} {l : Label} {tr : List ((Conn × Shared) × Label)}

theorem conforms_snoc {h : List (Call × Ret)} {ret : Ret} (hc : Conforms db h)
    (hret : ret = q.answer (storeAfter db h)) : Conforms db (h ++ [(q, ret)]) := by
  intro i q' ret' hi
  rcases Nat.lt_or_ge i h.length with hlt | hge
  · rw [List.getElem?_append_left hlt] at hi
    rw [List.take_append_of_le_length (Nat.le_of_lt hlt)]
    exact hc i q' ret' hi
  · rw [List.getElem?_append_right hge] at hi
    obtain ⟨hzero, heq⟩ := List.getElem?_eq_some_iff.mp hi
    simp only [List.length_cons, List.length_nil] at hzero
    have hlen : i = h.length := by omega
    subst hlen
    rw [List.take_left]
    simp only [Nat.sub_self, List.getElem_cons_zero, Prod.mk.injEq] at heq
    rw [← heq.1, ← heq.2]
    exact hret

theorem Conforms.left {h h' : List (Call × Ret)} (hc : Conforms db (h ++ h')) : Conforms db h := by
  intro i q ret hi
  have hlt := (List.getElem?_eq_some_iff.mp hi).1
  have := hc i q ret (by rw [List.getElem?_append_left hlt]; exact hi)
  rwa [List.take_append_of_le_length (Nat.le_of_lt hlt)] at this

theorem storeAfter_append (db : DB) (h h' : List (Call × Ret)) :
    storeAfter db (h ++ h') = replay (storeAfter db h) (h'.flatMap fun p => p.1.mutation) := by
  unfold storeAfter
  rw [List.flatMap_append, replay_append]

/-! ## What the clerk answers -/

namespace Conn

variable {sh : Shared} {k : Key}

/-- The turn that takes a `DELETE`. -/
theorem Serves.deletes {c c' : Conn} {sh' : Shared} (h : c.Serves sh c' sh')
    (hpc : c.client.pc = .deleteWait k) :
    c' = c.answer (c.woken.reply (if (sh.db k.bytes).isSome then .ok else .notFound) 0 []) ∧
      sh' = sh.deleted k.bytes := by
  cases h with
  | delete hpc' =>
    rw [hpc] at hpc'
    cases hpc'
    exact ⟨rfl, rfl⟩
  | _ => simp_all

/-- The turn that takes a `GET`. -/
theorem Serves.gets {c c' : Conn} {sh' : Shared} (h : c.Serves sh c' sh')
    (hpc : c.client.pc = .getWait k) :
    Request.key c.clerk.msg = k.bytes ∧ Request.keySize c.clerk.msg = k.bytes.length ∧
      c' = c.answer (c.woken.get sh) ∧ sh' = sh := by
  cases h with
  | get hpc' hkey hsize =>
    rw [hpc] at hpc'
    cases hpc'
    exact ⟨hkey, hsize, rfl, rfl⟩
  | _ => simp_all

/-- The answer to a `GET` is what the lookup finds. -/
theorem get_ret (c : Conn) (hkey : Request.key c.clerk.msg = k.bytes)
    (hsize : Request.keySize c.clerk.msg = k.bytes.length)
    (hidx : ∀ i, sh.index k.bytes = some i → i.valueSize < 2 ^ 32)
    (hdb : sh.index k.bytes = none → ∀ v, sh.db k.bytes = some v → v.length < 2 ^ 32) :
    (Call.get k).ret (c.woken.get sh).msg = .value (sh.lookup k.bytes) := by
  have hreply : ∀ (st : RequestStatus) (n : Nat) (v : Bytes), n = v.length → n < 2 ^ 32 →
      (Call.get k).ret (c.woken.reply st n v).msg =
        .value (if st = .ok then some v else none) := by
    intro st n v hn hlt
    obtain ⟨hok, hval, hread⟩ := Reply.fields_of_write c.clerk.msg st hn hlt
    show Ret.value (if Reply.isOk (c.clerk.msg.write 0 (Reply.encode st n v)) = true then
      some ((c.clerk.msg.write 0 (Reply.encode st n v)).read sizeofReply
        (Reply.valSize (c.clerk.msg.write 0 (Reply.encode st n v)))) else none) = _
    rw [hok, hval, hread]
    simp
  have hkey' : Request.key c.woken.msg = k.bytes := hkey
  have hsize' : Request.keySize c.woken.msg = k.bytes.length := hsize
  unfold Clerk.get
  rw [hkey', hsize']
  cases hi : sh.index k.bytes with
  | some i =>
    rw [Shared.lookup_some hi]
    exact hreply .ok _ _ (by simp) (hidx i hi)
  | none =>
    rw [Shared.lookup_none hi]
    cases hv : sh.db k.bytes with
    | some v =>
      have hlt := hdb hi v hv
      simp only [Nat.mod_eq_of_lt hlt, List.take_length]
      exact hreply .ok _ _ rfl hlt
    | none => exact hreply .notFound 0 [] rfl (by decide)

/-- The answer to a `DELETE` is whether the store has the key. -/
theorem delete_ret (c : Conn) (k : Key) (found : Bool) :
    (Call.delete k).ret (c.woken.reply (if found then .ok else .notFound) 0 []).msg =
      .deleted found := by
  have hok := (Reply.fields_of_write c.clerk.msg (if found then .ok else .notFound)
    (n := 0) (v := []) rfl (by decide)).1
  show Ret.deleted (Reply.isOk (c.clerk.msg.write 0 _)) = _
  rw [hok]
  cases found <;> rfl

end Conn

/-! ## The index of one client's open batch -/

/-- The newest record of a key. -/
def newest (ws : List Stored) (k : Bytes) : Option Stored :=
  lastOf (ws.map fun w => (w.record.key, w)) k

/-- What `im_index_` holds when one client writes: the newest record of each key. -/
def openIndex (writeBuf : Nat) (ws : List Stored) (k : Bytes) : Option DBIndex :=
  (newest ws k).map fun w => w.entry writeBuf

theorem newest_snoc (ws : List Stored) (w : Stored) (k : Bytes) :
    newest (ws ++ [w]) k = if w.record.key = k then some w else newest ws k := by
  unfold newest
  rw [List.map_append]
  exact lastOf_snoc _ _ _ _

theorem newest_mem {ws : List Stored} (h : newest ws k = some w) : w ∈ ws ∧ w.record.key = k := by
  have hmem := mem_of_lastOf h
  rw [List.mem_map] at hmem
  obtain ⟨x, hx, heq⟩ := hmem
  simp only [Prod.mk.injEq] at heq
  rw [← heq.2]
  exact ⟨hx, heq.1⟩

/-- The newest record of a key is what a batch puts there. -/
theorem lastOf_puts (ws : List Stored) (k : Bytes) :
    lastOf (Batch.puts (records ws)) k = (newest ws k).map fun w => some w.record.val := by
  unfold newest Batch.puts records
  rw [← lastOf_map, List.map_map, List.map_map]
  rfl

theorem openIndex_take (writeBuf : Nat) (ws : List Stored) (w : Stored) :
    openIndex writeBuf (ws ++ [w]) =
      Function.update (openIndex writeBuf ws) w.record.key (some (w.entry writeBuf)) := by
  funext k
  by_cases hk : w.record.key = k
  · subst hk
    simp [openIndex, newest_snoc]
  · simp [openIndex, newest_snoc, hk, Function.update_of_ne (Ne.symm hk)]

/-- A flush clears the index. -/
theorem eraseAll_openIndex (writeBuf : Nat) (ws : List Stored) :
    eraseAll (openIndex writeBuf ws) ((records ws).map Record.key) = openIndex writeBuf [] := by
  funext k
  rw [eraseAll_apply]
  split
  · rfl
  · rename_i hk
    have hnone : newest ws k = none := by
      refine lastOf_eq_none.mpr fun hmem => hk ?_
      simpa [records] using hmem
    show (newest ws k).map _ = none
    rw [hnone]
    rfl

/-- What an entry of the open batch reads as. -/
theorem Clerk.Laid.read_entry {k : Clerk} {m : Mem} (hl : k.Laid m) (hw : w ∈ k.openRecs) :
    m.read ((w.entry k.writeBuf).memaddr + w.record.key.length) (w.entry k.writeBuf).valueSize =
      w.record.val := by
  have hread := hl.intact w hw
  have hlen : sizeofRequest + w.record.key.length + w.record.val.length ≤ w.record.length :=
    Nat.le_refl _
  have h := Mem.read_sub hread (sizeofRequest + w.record.key.length) w.record.val.length hlen
  show m.read (k.writeBuf + w.pos + sizeofRequest + w.record.key.length) w.record.val.length = _
  rw [Nat.add_assoc (k.writeBuf + w.pos), h, Record.encode, List.drop_left' (by simp),
    List.take_length]

/-- What a `GET` finds through an entry of the open batch. -/
theorem Clerk.Laid.lookup {k : Clerk} (hl : k.Laid sh.mem) (hw : w ∈ k.openRecs)
    (he : sh.index w.record.key = some (w.entry k.writeBuf)) :
    sh.lookup w.record.key = some w.record.val := by
  rw [Shared.lookup_some he, hl.read_entry hw]

/-- What a `GET` finds is the store with the open batch on top. -/
theorem lookup_open {k : Clerk} (hl : k.Laid sh.mem)
    (hidx : sh.index = openIndex k.writeBuf k.openRecs) :
    sh.lookup = replay sh.db (Batch.puts (records k.openRecs)) := by
  funext key
  rw [replay_apply, lastOf_puts]
  cases hnew : newest k.openRecs key with
  | none =>
    refine Shared.lookup_none ?_
    rw [hidx, openIndex, hnew]
    rfl
  | some w =>
    obtain ⟨hw, rfl⟩ := newest_mem hnew
    refine hl.lookup hw ?_
    rw [hidx, openIndex, hnew]
    rfl

/-! ## Runs without `CLOSE` -/

/-- The connection is open, and `im_index_` mirrors the open batch. -/
structure Mirrored (s : Conn × Shared) : Prop where
  sound : Sound s
  stays : s.1.client.pc ≠ .closeWait ∧ s.1.client.pc ≠ .closed
  running : s.1.clerk.pc = .running
  index : s.2.index = openIndex s.1.clerk.writeBuf s.1.clerk.openRecs
  small : ∀ k v, s.2.db k = some v → v.length < 2 ^ 32

theorem Mirrored.laid (h : Mirrored s) : s.1.clerk.Laid s.2.mem :=
  (h.sound.inv.batch h.running).laid

theorem init_mirrored (h : system.init s) : Mirrored s := by
  have hs := (init_sole h).toSound
  obtain ⟨hfresh, writeBuf, flag, m, m', -, hs'⟩ := h
  refine ⟨hs, ?_, ?_, ?_, hfresh.small⟩
  · rw [hs']
    exact ⟨by simp [Conn.fresh], by simp [Conn.fresh]⟩
  · rw [hs']
    rfl
  · rw [hs', hfresh.index]
    rfl

/-- A client that is not asked to close does not close. -/
theorem Client.Resumes.stays {c cl : Client} {out : List ToClerk} (h : c.Resumes cl out)
    (hc : c.pc ≠ .closeWait) :
    cl.pc ≠ .closeWait ∧ cl.pc ≠ .closed ∧ ∀ k, cl.pc ≠ .deleteWait k := by
  cases h with
  | close hpc => exact absurd hpc hc
  | _ => simp [Client.postRecord, Client.returned]

theorem Client.call_stays (c : Client) (hq : q ≠ .close) :
    (c.call q).1.pc ≠ .closeWait ∧ (c.call q).1.pc ≠ .closed := by
  cases q with
  | write r =>
    simp only [call, sendWrite]
    split <;> simp
  | close => exact absurd rfl hq
  | _ => simp [call, sendGet, sendSync, sendDelete, sendKey, sendBare]

theorem Client.call_deletes (c : Client) {k : Key} (h : (c.call q).1.pc = .deleteWait k) :
    q = .delete k := by
  cases q with
  | write r =>
    simp only [call, sendWrite] at h
    split at h <;> cases h
  | delete k' =>
    cases h
    rfl
  | _ => cases h

/-- A step other than a call of `SendClose` does not close. -/
theorem Conn.step_stays (hinv : c.Inv sh.mem) (h : c.step sh l = some (c', sh'))
    (hl : ∀ q, l = .call q → q ≠ .close) (hpc : c.client.pc ≠ .closeWait ∧ c.client.pc ≠ .closed) :
    c'.client.pc ≠ .closeWait ∧ c'.client.pc ≠ .closed := by
  rcases Conn.step_pc hinv h with hpc' | ⟨q, rfl, hpc'⟩ | ⟨cl, out, hres, hpc'⟩
  · rw [hpc']
    exact hpc
  · rw [hpc']
    exact c.client.call_stays (hl q rfl)
  · obtain ⟨h1, h2, -⟩ := hres.stays hpc.1
    rw [hpc']
    exact ⟨h1, h2⟩

/-- A step other than a call of `SendDelete` does not delete. -/
theorem Conn.step_deletes (hinv : c.Inv sh.mem) (h : c.step sh l = some (c', sh'))
    (hl : ∀ q, l = .call q → ∀ k, q ≠ .delete k) (hpc : c.client.pc ≠ .closeWait)
    (hdel : ∀ k, c.client.pc ≠ .deleteWait k) : ∀ k, c'.client.pc ≠ .deleteWait k := by
  intro k hk
  rcases Conn.step_pc hinv h with hpc' | ⟨q, rfl, hpc'⟩ | ⟨cl, out, hres, hpc'⟩
  · exact hdel k (hpc' ▸ hk)
  · exact hl q rfl k (c.client.call_deletes (hpc' ▸ hk))
  · exact (hres.stays hpc).2.2 k (hpc' ▸ hk)

/-- Storing records keeps values short. -/
theorem small_replay {ws : List Stored} (h : ∀ k v, db k = some v → v.length < 2 ^ 32) :
    ∀ k v, replay db (Batch.puts (records ws)) k = some v → v.length < 2 ^ 32 := by
  intro k v hv
  rw [replay_apply, lastOf_puts] at hv
  cases hnew : newest ws k with
  | none =>
    rw [hnew] at hv
    exact h k v hv
  | some w =>
    rw [hnew] at hv
    have hval : w.record.val = v := Option.some.inj hv
    rw [← hval]
    exact Nat.lt_trans w.record.val_lt (by decide)

/-- A turn of the clerk keeps values short. -/
theorem Conn.Serves.small (h : c.Serves sh c' sh')
    (hsmall : ∀ k v, sh.db k = some v → v.length < 2 ^ 32) :
    ∀ k v, sh'.db k = some v → v.length < 2 ^ 32 := by
  cases h with
  | nop hpc => exact small_replay hsmall
  | short hpc htake hlt => exact hsmall
  | full hpc htake hge => exact small_replay hsmall
  | get hpc hkey hsize => exact hsmall
  | sync hpc => exact hsmall
  | @delete k hpc =>
    intro k' v hv
    by_cases hk : k' = k.bytes
    · subst hk
      simp [Shared.deleted] at hv
    · refine hsmall k' v ?_
      simpa [Shared.deleted, Function.update_of_ne hk] using hv
  | closeFull hpc hne => exact small_replay hsmall
  | closeEmpty hpc he => exact hsmall

/-- A turn of the clerk keeps the mirror. -/
theorem Mirrored.serve (h : Mirrored (c, sh)) (hstep : c.step sh .serve = some (c', sh')) :
    Mirrored (c', sh') := by
  have hs' : Sound (c', sh') := h.sound.step (l := .serve) hstep
  obtain ⟨hsv, hrun, hb⟩ := serve_serves h.sound.inv.phase h.sound.inv.batch hstep
  have hstays : c.client.pc ≠ .closeWait ∧ c.client.pc ≠ .closed := h.stays
  have hrun : c.clerk.pc = .running := hrun
  have hindex : sh.index = openIndex c.clerk.writeBuf c.clerk.openRecs := h.index
  have hsmall := hsv.small h.small
  have hclosing : ¬ (c.client.pc = .closeWait ∨ c.client.pc = .closed) := by
    rintro (h' | h')
    · exact hstays.1 h'
    · exact hstays.2 h'
  cases hsv with
  | nop hpc =>
    refine ⟨hs', hstays, hrun, ?_, hsmall⟩
    show eraseAll sh.index _ = openIndex c.clerk.writeBuf []
    rw [hindex]
    exact eraseAll_openIndex _ _
  | @short r pos hpc htake hlt =>
    refine ⟨hs', hstays, hrun, ?_, hsmall⟩
    show Function.update sh.index _ _ = openIndex c.clerk.writeBuf (c.clerk.openRecs ++ [_])
    rw [openIndex_take, hindex]
  | @full r pos hpc htake hge =>
    refine ⟨hs', hstays, hrun, ?_, hsmall⟩
    show eraseAll (Function.update sh.index _ _) _ = openIndex c.clerk.writeBuf []
    rw [hindex, ← openIndex_take]
    exact eraseAll_openIndex _ _
  | get hpc hkey hsize =>
    obtain ⟨st, n, v, hget⟩ := c.woken.get_eq_reply sh
    rw [hget] at hs' ⊢
    exact ⟨hs', hstays, hrun, hindex, hsmall⟩
  | sync hpc => exact ⟨hs', hstays, hrun, hindex, hsmall⟩
  | delete hpc => exact ⟨hs', hstays, hrun, hindex, hsmall⟩
  | closeFull hpc => exact absurd hpc hclosing
  | closeEmpty hpc => exact absurd hpc hclosing

/-- Every step but the call of `SendClose` keeps the mirror. -/
theorem Mirrored.step (h : Mirrored s) (hl : ∀ q, l = .call q → q ≠ .close)
    (hstep : system.step s l = some s') : Mirrored s' := by
  by_cases hserve : l = .serve
  · subst hserve
    exact h.serve hstep
  · obtain ⟨hopen, -, hindex, hdb, -⟩ := Conn.step_books hstep hserve
    refine ⟨h.sound.step hstep, Conn.step_stays h.sound.inv hstep hl h.stays, ?_, ?_, ?_⟩
    · rcases Conn.step_clerk hstep hserve with hpc | ⟨⟨sync, hpc⟩, -⟩
      · rw [hpc]
        exact h.running
      · rw [h.running] at hpc
        cases hpc
    · rw [hindex, hopen, Conn.step_writeBuf h.sound.inv hstep]
      exact h.index
    · rw [hdb]
      exact h.small

/-- A client that does not close keeps the mirror all along. -/
theorem mirrored_throughout (hinit : system.init s₀) (hrun : system.Run s₀ tr s)
    (hcalls : ∀ q ∈ calls tr, q ≠ .close) : Throughout Mirrored tr s := by
  refine hrun.throughout (meets_of_calls hcalls) ?_
  intro tr s hrun hok
  exact hrun.invariant (init_mirrored hinit) (fun _ _ _ h hok => h.step hok) hok

/-! ## Reads and writes -/

/-- The map a connection stands for: the store with the open batch on top. -/
def content (s : Conn × Shared) : DB := replay s.2.db (Batch.puts (records s.1.clerk.openRecs))

theorem Mirrored.lookup (h : Mirrored s) : s.2.lookup = content s :=
  lookup_open h.laid h.index

/-- The index misses a key exactly when the open batch does. -/
theorem Mirrored.index_none (h : Mirrored s) :
    s.2.index k = none ↔ lastOf (Batch.puts (records s.1.clerk.openRecs)) k = none := by
  rw [h.index, openIndex, lastOf_puts, Option.map_eq_none_iff, Option.map_eq_none_iff]

theorem Mirrored.entry_small (h : Mirrored s) {i : DBIndex} (hi : s.2.index k = some i) :
    i.valueSize < 2 ^ 32 := by
  rw [h.index, openIndex, Option.map_eq_some_iff] at hi
  obtain ⟨w, -, rfl⟩ := hi
  exact Nat.lt_trans w.record.val_lt (by decide)

/-- A `DELETE` is taken only when its key is not in the open batch. -/
def DeletesFlushed (s : Conn × Shared) : Label → Prop
  | .serve => ∀ k, s.1.client.pc = .deleteWait k → s.2.index k.bytes = none
  | _ => True

/-- What a turn of the clerk does to the map and to the answers. -/
structure Answers (s s' : Conn × Shared) : Prop where
  content : content s' =
    replay (content s) (s.1.client.pc.call.toList.flatMap Call.mutation)
  served : s'.1.clerk.served = s.1.clerk.served ++
    s.1.client.pc.call.toList.map fun q => (q, q.answer (Hybrid.content s))

theorem Answers.of_call {k : Clerk} (hcall : c.client.pc.call = some q)
    (hserved : k.served = c.clerk.served) (hret : q.ret k.msg = q.answer (Hybrid.content (c, sh)))
    (hcontent : replay sh'.db (Batch.puts (records k.openRecs)) =
      replay (Hybrid.content (c, sh)) q.mutation) : Answers (c, sh) (c.answer k, sh') := by
  constructor
  · show replay sh'.db (Batch.puts (records k.openRecs)) =
      replay _ (c.client.pc.call.toList.flatMap Call.mutation)
    rw [hcontent, hcall, Option.toList_some, List.flatMap_singleton]
  · show k.served ++ c.client.pc.call.toList.map (fun q => (q, q.ret k.msg)) =
      c.clerk.served ++ c.client.pc.call.toList.map _
    rw [hserved, hcall, Option.toList_some, List.map_singleton, List.map_singleton, hret]

theorem Mirrored.answers (h : Mirrored s) (hdel : DeletesFlushed s .serve)
    (hstep : system.step s .serve = some s') : Answers s s' := by
  obtain ⟨c, sh⟩ := s
  obtain ⟨c', sh'⟩ := s'
  have hsv : c.Serves sh c' sh' := (serve_serves h.sound.inv.phase h.sound.inv.batch hstep).1
  have hlookup : sh.lookup = content (c, sh) := h.lookup
  have hclosing : ¬ (c.client.pc = .closeWait ∨ c.client.pc = .closed) := by
    rintro (h' | h')
    · exact h.stays.1 h'
    · exact h.stays.2 h'
  cases hsv with
  | nop hpc =>
    constructor
    · show _ = replay _ (c.client.pc.call.toList.flatMap Call.mutation)
      rw [hpc]
      rfl
    · show c.clerk.served ++ c.client.pc.call.toList.map _ =
        c.clerk.served ++ c.client.pc.call.toList.map _
      rw [hpc]
      rfl
  | @short r pos hpc htake hlt =>
    refine .of_call (q := .write r) (by rw [hpc]; rfl) rfl rfl ?_
    show replay sh.db (Batch.puts (records (c.clerk.openRecs ++ [_]))) = _
    rw [records_append, Batch.puts_append, replay_append]
    rfl
  | @full r pos hpc htake hge =>
    refine .of_call (q := .write r) (by rw [hpc]; rfl) rfl rfl ?_
    show replay sh.db (Batch.puts (records (c.clerk.openRecs ++ [_]))) = _
    rw [records_append, Batch.puts_append, replay_append]
    rfl
  | @get k hpc hkey hsize =>
    have hret : (Call.get k).ret (c.woken.get sh).msg = .value (content (c, sh) k.bytes) := by
      rw [c.get_ret hkey hsize (fun i => h.entry_small) (fun _ => h.small k.bytes), hlookup]
    obtain ⟨st, n, v, hget⟩ := c.woken.get_eq_reply sh
    rw [hget] at hret ⊢
    exact .of_call (by rw [hpc]; rfl) rfl hret rfl
  | sync hpc => exact .of_call (q := .sync) (by rw [hpc]; rfl) rfl rfl rfl
  | @delete k hpc =>
    -- the key is not in the open batch: the store alone decides
    have hnone : sh.index k.bytes = none := hdel k hpc
    have hdb : sh.db k.bytes = content (c, sh) k.bytes := by
      rw [← hlookup, Shared.lookup_none hnone]
    have hfresh : lastOf (Batch.puts (records c.clerk.openRecs)) k.bytes = none :=
      h.index_none.mp hnone
    refine .of_call (q := .delete k) (by rw [hpc]; rfl) rfl ?_ (replay_update none hfresh)
    rw [c.delete_ret, hdb]
    rfl
  | closeFull hpc => exact absurd hpc hclosing
  | closeEmpty hpc => exact absurd hpc hclosing

/-! ## Whole runs -/

/-- The map is what the calls answered so far make of the first one. -/
def Coherent (db : DB) (s : Conn × Shared) : Prop :=
  content s = storeAfter db s.1.clerk.served

/-- A turn that is answered from the map keeps it coherent. -/
theorem Answers.coherent (h : Answers s s') (hc : Coherent db s) : Coherent db s' := by
  unfold Coherent
  rw [h.content, h.served, storeAfter_append, List.flatMap_map, ← hc]

/-- A turn that is answered from the map keeps the answers right. -/
theorem Answers.conforms (h : Answers s s') (hc : Coherent db s)
    (ha : Conforms db s.1.clerk.served) : Conforms db s'.1.clerk.served := by
  rw [h.served]
  cases s.1.client.pc.call with
  | none => simpa using ha
  | some q => exact conforms_snoc ha (by rw [hc])

/-- A `DELETE` of a key in the open batch leaves the key there. -/
theorem Mirrored.delete_keeps {k : Key} (h : Mirrored s) (hpc : s.1.client.pc = .deleteWait k)
    (hstep : system.step s .serve = some s') (hidx : s.2.index k.bytes ≠ none) :
    ¬ Coherent db s' := by
  obtain ⟨c, sh⟩ := s
  obtain ⟨c', sh'⟩ := s'
  have hsv : c.Serves sh c' sh' := (serve_serves h.sound.inv.phase h.sound.inv.batch hstep).1
  obtain ⟨rfl, rfl⟩ := hsv.deletes hpc
  intro hc
  have hcall : c.client.pc.call = some (.delete k) := by
    rw [show c.client.pc = _ from hpc]
    rfl
  have hk : replay (Function.update sh.db k.bytes none) (Batch.puts (records c.clerk.openRecs))
      k.bytes = storeAfter db (c.clerk.served ++ c.client.pc.call.toList.map _) k.bytes :=
    congrFun hc k.bytes
  have hnone : ∀ ret, storeAfter db (c.clerk.served ++ [(.delete k, ret)]) k.bytes = none := by
    intro ret
    rw [storeAfter_append]
    exact Function.update_self _ _ _
  rw [hcall, Option.toList_some, List.map_singleton, hnone, replay_apply, lastOf_puts] at hk
  cases hnew : newest c.clerk.openRecs k.bytes with
  | none => exact hidx (h.index_none.mpr (by rw [lastOf_puts, hnew]; rfl))
  | some w =>
    rw [hnew] at hk
    cases hk

/-- A step keeps the map coherent exactly when no `DELETE` meets the open batch. -/
theorem Mirrored.coherent_iff (h : Mirrored s) (hc : Coherent db s)
    (hstep : system.step s l = some s') : Coherent db s' ↔ DeletesFlushed s l := by
  by_cases hserve : l = .serve
  · subst hserve
    constructor
    · intro hc' k hpc
      by_contra hidx
      exact h.delete_keeps hpc hstep hidx hc'
    · intro hdel
      exact (h.answers hdel hstep).coherent hc
  · obtain ⟨hopen, hserved, -, hdb, -⟩ := Conn.step_books hstep hserve
    refine ⟨fun _ => ?_, fun _ => ?_⟩
    · cases l with
      | serve => exact absurd rfl hserve
      | _ => trivial
    · unfold Coherent content
      rw [hopen, hserved, hdb]
      exact hc

/-- The map mirrored, coherent, and all answers right. -/
structure Reading (db : DB) (s : Conn × Shared) : Prop where
  mirrored : Mirrored s
  coherent : Coherent db s
  conforms : Conforms db s.1.clerk.served

theorem init_reading (h : system.init s) : Reading s.2.db s := by
  refine ⟨init_mirrored h, ?_, ?_⟩
  · obtain ⟨-, writeBuf, flag, m, m', -, hs⟩ := h
    unfold Coherent content
    rw [hs]
    rfl
  · obtain ⟨-, writeBuf, flag, m, m', -, hs⟩ := h
    rw [hs]
    intro i q ret hi
    cases hi

theorem Reading.step (h : Reading db s) (hl : ∀ q, l = .call q → q ≠ .close)
    (hdel : DeletesFlushed s l) (hstep : system.step s l = some s') : Reading db s' := by
  refine ⟨h.mirrored.step hl hstep, (h.mirrored.coherent_iff h.coherent hstep).mpr hdel, ?_⟩
  by_cases hserve : l = .serve
  · subst hserve
    exact (h.mirrored.answers hdel hstep).conforms h.coherent h.conforms
  · have hbooks := Conn.step_books hstep hserve
    rw [hbooks.served]
    exact h.conforms

/-- The client has returned a part of what the clerk has answered. -/
theorem Conn.Phase.history {m : Mem} (hph : c.Phase m) :
    ∃ rest, c.clerk.served = c.client.history ++ rest := by
  rcases hph with hq | ⟨l, hr⟩ | ⟨l, hr⟩ | hl | hc
  · exact ⟨[], by rw [hq.books.1, List.append_nil]⟩
  · exact ⟨[], by rw [hr.books.1, List.append_nil]⟩
  · exact ⟨_, hr.books.1⟩
  · exact ⟨[], by rw [hl.books.1, List.append_nil]⟩
  · exact ⟨[], by rw [hc.books.1, List.append_nil]⟩

/-- Every call the client made returned what the map says, and a `GET` now would
find what the map says. -/
structure Faithful (db : DB) (s : Conn × Shared) : Prop where
  answers : Conforms db s.1.client.history
  lookup : s.2.lookup = storeAfter db s.1.clerk.served

theorem Reading.faithful (h : Reading db s) : Faithful db s := by
  obtain ⟨rest, hserved⟩ := h.mirrored.sound.inv.phase.history
  refine ⟨?_, h.mirrored.lookup.trans h.coherent⟩
  have hc := h.conforms
  rw [hserved] at hc
  exact hc.left

/-- Without calls of `SendDelete` no `DELETE` is taken. -/
theorem Reading.step_delete_free (h : Reading db s ∧ ∀ k, s.1.client.pc ≠ .deleteWait k)
    (hl : ∀ q, l = .call q → q ≠ .close ∧ ∀ k, q ≠ .delete k) (hstep : system.step s l = some s') :
    Reading db s' ∧ ∀ k, s'.1.client.pc ≠ .deleteWait k := by
  obtain ⟨hread, hnone⟩ := h
  have hdel : DeletesFlushed s l := by
    cases l with
    | serve => exact fun k hpc => absurd hpc (hnone k)
    | _ => trivial
  exact ⟨hread.step (fun q hq => (hl q hq).1) hdel hstep,
    Conn.step_deletes hread.mirrored.sound.inv hstep (fun q hq => (hl q hq).2)
      hread.mirrored.stays.1 hnone⟩

theorem reading_of_delete_free (hinit : system.init s₀) (hrun : system.Run s₀ tr s)
    (hcalls : ∀ q ∈ calls tr, q ≠ .close ∧ ∀ k, q ≠ .delete k) : Reading s₀.2.db s := by
  have hidle : ∀ k, s₀.1.client.pc ≠ .deleteWait k := by
    rw [(init_untouched hinit).atRest.idle]
    simp
  exact (hrun.invariant ⟨init_reading hinit, hidle⟩ (fun s l s' => Reading.step_delete_free)
    (meets_of_calls hcalls)).1

/-- Reads see the client's own writes: whatever the persist threads do, a `SendGet`
returns the value of the last write of its key, or what the store held at first,
and a `SendGet` that has been posted does return. -/
theorem read_your_writes (hinit : system.init s₀) (hrun : system.Run s₀ tr s)
    (hcalls : ∀ q ∈ calls tr, q ≠ .close ∧ ∀ k, q ≠ .delete k) :
    (∀ (i : Nat) (k : Key) (ret : Ret), s.1.client.history[i]? = some (.get k, ret) →
      ret = .value (storeAfter s₀.2.db (s.1.client.history.take i) k.bytes)) ∧
    ∀ k, s.1.client.pc = .getWait k → ∃ s', Drives [] s s' ∧ s'.1.client.history =
      s.1.client.history ++ [(.get k, .value (storeAfter s₀.2.db s.1.client.history k.bytes))] := by
  have hread := reading_of_delete_free hinit hrun hcalls
  refine ⟨fun i k ret => hread.faithful.answers i (.get k) ret, fun k hpc => ?_⟩
  obtain ⟨s', ret, ⟨tr', hrun', hno, hnil⟩, -, hhist⟩ :=
    call_returns hread.mirrored.sound (q := .get k) (by rw [hpc]; rfl)
  have hread' := reading_of_delete_free hinit (hrun.trans hrun') (by
    rw [calls_append, hnil, List.append_nil]
    exact hcalls)
  have hret := hread'.faithful.answers s.1.client.history.length (.get k) ret (by
    rw [hhist]
    exact List.getElem?_concat_length)
  rw [hhist, List.take_left] at hret
  refine ⟨s', ⟨tr', hrun', hno, hnil⟩, ?_⟩
  rw [hhist, hret]
  rfl

/-- Three records of 8184 bytes, one of ten, and the full batch persisted: the client reads the
former from the store and the latter from the open batch. -/
theorem flushed_record_read :
    ∃ tr s, system.Run boot tr s ∧
      calls tr = (List.replicate 3 (sample 1 8175) ++ [sample 2 1]).map .write ++
        [.get (sampleKey 1), .get (sampleKey 2)] ∧
      s.1.clerk.threads.map Thread.stage = [.done] ∧
      s.1.client.history[4]? = some (.get (sampleKey 1), .value (some (List.replicate 8175 1))) ∧
      s.1.client.history[5]? = some (.get (sampleKey 2), .value (some [2])) := by
  obtain ⟨⟨c₁, sh₁⟩, ⟨tr₁, hrun₁, -, hcalls₁⟩, hu, hring, -⟩ := (init_untouched boot_init).writes
    (List.replicate 3 (sample 1 8175) ++ [sample 2 1])
  have hlen : c₁.clerk.threads.length = 1 := by
    have hload : c₁.ring.load = (24570, 10, 1) := by
      rw [show c₁.ring = _ from hring, Ring.load_writes, List.map_append, List.map_replicate,
        List.map_singleton, length_sample, length_sample, boot_load]
      decide
    exact congrArg (fun p => p.2.2) hload
  obtain ⟨tr₂, word, logged, log, hrun₂, hcalls₂⟩ :=
    all_finish sh₁ hu.atRest.toClient hu.mu fun u hmem => .inl (hu.pending u hmem)
  have hrest₂ := AtRest.mk (hrun₂.invariant hu.atRest.sound
    (fun _ _ _ hs (_ : True) => hs.step) (fun _ _ => trivial)) hu.atRest.idle rfl
  obtain ⟨c₃, sh₃, ⟨tr₃, hrun₃, -, hcalls₃⟩, hrest₃, hring₃⟩ :=
    call_completes hrest₂ (q := .get (sampleKey 1)) rfl (by simp)
  obtain ⟨c, sh, ⟨tr₄, hrun₄, -, hcalls₄⟩, hrest, hring₄⟩ :=
    call_completes hrest₃ (q := .get (sampleKey 2)) rfl (by simp)
  have hrun := ((hrun₁.trans hrun₂).trans hrun₃).trans hrun₄
  have hcalls : calls (tr₁ ++ tr₂ ++ tr₃ ++ tr₄) =
      (List.replicate 3 (sample 1 8175) ++ [sample 2 1]).map .write ++
        [.get (sampleKey 1), .get (sampleKey 2)] := by
    rw [calls_append, calls_append, calls_append, hcalls₁, hcalls₂, hcalls₃, hcalls₄]
    rfl
  have hledger := (run_ledger boot_init hrun).idle hrest.idle
  obtain ⟨hreads, -⟩ := read_your_writes boot_init hrun (by rw [hcalls]; simp)
  have hanswer : ∀ (i : Nat) (k : Key), (calls (tr₁ ++ tr₂ ++ tr₃ ++ tr₄))[i]? = some (.get k) →
      c.client.history[i]? = some (.get k, .value (replay boot.2.db
        (((calls (tr₁ ++ tr₂ ++ tr₃ ++ tr₄)).take i).flatMap Call.mutation) k.bytes)) := by
    intro i k hi
    rw [← hledger, List.getElem?_map, Option.map_eq_some_iff] at hi
    obtain ⟨⟨q, ret⟩, hi, rfl⟩ := hi
    rw [hi, hreads i k ret hi, storeAfter, ← hledger, ← List.map_take, List.flatMap_map]
  refine ⟨_, (c, sh), hrun, hcalls, ?_, ?_, ?_⟩
  · obtain ⟨t, ht⟩ := List.length_eq_one_iff.mp hlen
    show c.ring.threads.map Thread.stage = _
    rw [hring₄, hring₃]
    show (c₁.clerk.threads.map fun t => { t with stage := .done }).map Thread.stage = _
    rw [ht]
    rfl
  · rw [hanswer 4 (sampleKey 1) (by rw [hcalls]; rfl), hcalls]
    rfl
  · rw [hanswer 5 (sampleKey 2) (by rw [hcalls]; rfl), hcalls]
    rfl

/-- In a run without `CLOSE`, the client sees a map throughout exactly when no
`DELETE` is taken while its key is in the open batch. -/
theorem faithful_iff (hinit : system.init s₀) (hrun : system.Run s₀ tr s)
    (hcalls : ∀ q ∈ calls tr, q ≠ .close) :
    Throughout (Faithful s₀.2.db) tr s ↔ Meets DeletesFlushed tr := by
  have hopen := meets_of_calls hcalls
  constructor
  · intro hall
    refine (hrun.all_iff _ (init_mirrored hinit) (init_reading hinit).coherent
      (fun s l s' h hok => h.step hok) (fun s l s' h hc _ => h.coherent_iff hc) hopen).mp ?_
    have hmirrored := mirrored_throughout hinit hrun hcalls
    exact ⟨hmirrored.1.lookup.symm.trans hall.1.lookup,
      fun p hp => (hmirrored.2 p hp).lookup.symm.trans (hall.2 p hp).lookup⟩
  · intro hdel
    have hok : Meets (fun s l => (∀ q, l = .call q → q ≠ .close) ∧ DeletesFlushed s l) tr :=
      fun p hp => ⟨hopen p hp, hdel p hp⟩
    refine hrun.throughout hok fun tr s hrun hok => ?_
    exact (hrun.invariant (init_reading hinit) (fun s l s' h hok => h.step hok.1 hok.2)
      hok).faithful

/-- A key that was never written is not indexed. -/
theorem Mirrored.index_written (hinit : system.init s₀) (hrun : system.Run s₀ tr s) (h : Mirrored s)
    (hk : ∀ r ∈ writes (calls tr), r.key ≠ k) : s.2.index k = none := by
  rw [h.index_none, lastOf_puts, Option.map_eq_none_iff]
  cases hnew : newest s.1.clerk.openRecs k with
  | none => rfl
  | some w =>
    obtain ⟨hw, hkey⟩ := newest_mem hnew
    exact absurd hkey (hk _ (taken_written hinit hrun w (h.laid.recent.subset hw)))

/-- A write of one key, then a `DELETE` of another one. -/
theorem delete_of_other_key_faithful :
    ∃ tr s, system.Run boot tr s ∧
      calls tr = [.write (sample 1 1), .delete (sampleKey 2)] ∧
      Throughout (Faithful boot.2.db) tr s := by
  obtain ⟨s, ⟨tr, hrun, -, hcalls⟩, hu⟩ := (init_untouched boot_init).calls
    [.write (sample 1 1), .delete (sampleKey 2)] (by simp)
  have hclose : ∀ q ∈ calls tr, q ≠ .close := by
    rw [hcalls]
    simp
  refine ⟨tr, s, hrun, hcalls, (faithful_iff boot_init hrun hclose).mpr fun p hp => ?_⟩
  have hmirrored := (mirrored_throughout boot_init hrun hclose).2 p hp
  obtain ⟨tr', hrun', x, rfl⟩ := hrun.visited p hp
  rw [calls_append] at hcalls
  obtain ⟨s', l⟩ := p
  cases l with
  | serve =>
    intro k hpc
    have hk : k = sampleKey 2 := by
      have hmem : Call.delete k ∈ calls tr' := by
        rw [(run_ledger boot_init hrun').calls, show s'.1.client.pc = _ from hpc]
        exact List.mem_append_right _ (List.mem_singleton.mpr rfl)
      have hmem := List.mem_append_left (calls x) hmem
      rw [hcalls] at hmem
      simpa using hmem
    refine hmirrored.index_written boot_init hrun' fun r hr => ?_
    have hr : r ∈ writes (calls tr' ++ calls x) := by
      rw [writes_append]
      exact List.mem_append_left _ hr
    rw [hcalls] at hr
    rw [List.mem_singleton.mp hr, hk]
    decide
  | _ => trivial

/-- One `SendPut` on an empty store, then `SendDelete`: the record is in the open
batch, the store is still empty, and `SendDelete` returns false whatever its key. -/
theorem delete_misses (r : Record) (k : Key) :
    ∃ tr s ret, system.Run boot tr s ∧ calls tr = [.write r, .delete k] ∧
      s.1.client.history = [(.write r, ret), (.delete k, .deleted false)] := by
  obtain ⟨c, m, ⟨tr, hrun, -, hcalls⟩, hu, -⟩ :=
    (show Untouched (boot.1, boot.2) from init_untouched boot_init).write r
  obtain ⟨c₀, c₁, sh₁, c₂, c', sh', ⟨tr', hrun', -, hcalls'⟩, hround, hcall, -, -, hhist₀⟩ :=
    call_rounds hu.atRest (q := .delete k) rfl
  have hpc : c₁.client.pc = .deleteWait k := by
    rw [hround.arrives.client]
    generalize c₀.client.pc = p at hcall
    cases p <;> cases hcall
    rfl
  -- the record was not flushed, so the store is still empty
  have hdb : sh₁.db k.bytes = none := by
    have hfirst : ∀ sh a, Shared.sendWrite sh a boot.1.ring r = sh.take a ⟨0, r, ringHeader⟩ :=
      (fresh_sendWrite _ _ _ _ r).2
    obtain ⟨m₁, hm₁⟩ := hround.arrives.shared
    rw [hm₁, hfirst]
    rfl
  have hhist := hround.history
  rw [hcall, hhist₀, (hround.serves.deletes hpc).1, hdb] at hhist
  have hret := c₁.delete_ret k false
  have hledger := (run_ledger boot_init hrun).idle hu.atRest.idle
  rw [hcalls] at hledger
  obtain ⟨⟨q₀, ret⟩, t₀, hh₀, rfl, ht₀⟩ := List.map_eq_cons_iff.mp hledger
  rw [List.map_eq_nil_iff.mp ht₀] at hh₀
  refine ⟨tr ++ tr', (c', sh'), ret, hrun.trans hrun', by rw [calls_append, hcalls, hcalls']; rfl,
    ?_⟩
  show c'.client.history = _
  rw [hhist, show c.client.history = _ from hh₀]
  exact congrArg (fun x => [(Call.write r, ret), (.delete k, x)]) hret

/-- A concrete `SendDelete` that returns false although its key has a value. -/
theorem delete_of_written_key_fails :
    ∃ tr s ret, system.Run boot tr s ∧ s.1.client.history =
        [(.write (sample 1 1), ret), (.delete (sampleKey 1), .deleted false)] ∧
      ¬ Faithful boot.2.db s := by
  obtain ⟨tr, s, ret, hrun, -, hhist⟩ := delete_misses (sample 1 1) (sampleKey 1)
  refine ⟨tr, s, ret, hrun, hhist, fun hf => ?_⟩
  have hret := hf.answers 1 (.delete (sampleKey 1)) (.deleted false) (by rw [hhist]; rfl)
  rw [hhist] at hret
  have hret : Ret.deleted false = .deleted true := hret
  cases hret

end LogDirect.Hybrid
