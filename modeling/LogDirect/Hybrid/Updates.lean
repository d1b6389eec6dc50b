import LogDirect.Hybrid.Index

/-!
# Updates by several clients

All clerks of a server write into one `im_index_`, but each keeps its own batch,
and flushes it when it is full. What a `GET` finds is then a map
(`Shared.lookup`): a turn that takes a record sets its key, and a flush sets all
keys of the batch to the values the batch has for them (`lookup_take`,
`lookup_flushed`). A flush is harmless where these values are the current ones;
`no_lost_update_iff` says that this is exactly what keeps the last update of
every key.
-/

namespace LogDirect.Hybrid

open Lib TSys Conn

/-! ## What a turn of the clerk does to the map -/

/-- A flush puts the records of the batch. -/
theorem lookup_flushed (sh : Shared) (ws : List Stored) :
    (sh.flushed (records ws)).lookup = replay sh.lookup (Batch.puts (records ws)) := by
  funext k
  have hdb : (sh.flushed (records ws)).db k =
      (lastOf (Batch.puts (records ws)) k).getD (sh.db k) := replay_apply _ _ _
  have hindex : (sh.flushed (records ws)).index k = _ :=
    eraseAll_apply sh.index ((records ws).map Record.key) k
  have hkeys : (records ws).map Record.key = (Batch.puts (records ws)).map Prod.fst := by
    simp [Batch.puts]
  rw [replay_apply]
  by_cases hk : k ∈ (records ws).map Record.key
  · rw [if_pos hk] at hindex
    rw [hkeys] at hk
    obtain ⟨v, hv⟩ := Option.isSome_iff_exists.mp ((lastOf_isSome _ k).mpr hk)
    rw [Shared.lookup_none hindex, hdb, hv]
    rfl
  · rw [if_neg hk] at hindex
    rw [hkeys] at hk
    rw [lastOf_eq_none.mpr hk] at hdb ⊢
    cases he : sh.index k with
    | some e =>
      rw [Shared.lookup_some (hindex.trans he)]
      exact (Shared.lookup_some he).symm
    | none =>
      rw [Shared.lookup_none (hindex.trans he), hdb]
      exact (Shared.lookup_none he).symm

/-- A record that is taken sets its key. -/
theorem lookup_take {k : Clerk} {sh : Shared} {w : Stored} (hl : (k.take w).Laid sh.mem) :
    (sh.take k.writeBuf w).lookup =
      Function.update sh.lookup w.record.key (some w.record.val) := by
  funext key
  by_cases hk : key = w.record.key
  · subst hk
    have hlaid : (k.take w).Laid (sh.take k.writeBuf w).mem := hl
    rw [Function.update_self]
    exact hlaid.lookup (List.mem_append_right _ (List.mem_singleton.mpr rfl))
      (Function.update_self _ _ _)
  · have hindex : (sh.take k.writeBuf w).index key = sh.index key := Function.update_of_ne hk _ _
    rw [Function.update_of_ne hk]
    cases he : sh.index key with
    | some e =>
      rw [Shared.lookup_some (hindex.trans he)]
      exact (Shared.lookup_some he).symm
    | none =>
      rw [Shared.lookup_none (hindex.trans he)]
      exact (Shared.lookup_none he).symm

/-- A flush leaves a key alone exactly when the value the batch has for it is current. -/
theorem replay_puts_iff {m : DB} {ws : List Stored} {k : Bytes} :
    replay m (Batch.puts (records ws)) k = m k ↔
      ∀ w, newest ws k = some w → m k = some w.record.val := by
  rw [replay_eq_self_iff, lastOf_puts]
  cases newest ws k with
  | none => simp
  | some w => simp

/-- The same for a flush whose last record has just been taken. -/
theorem replay_take_iff {m : DB} {ws : List Stored} {w : Stored} :
    replay (Function.update m w.record.key (some w.record.val)) (Batch.puts (records (ws ++ [w]))) =
        Function.update m w.record.key (some w.record.val) ↔
      ∀ k w', w.record.key ≠ k → newest ws k = some w' → m k = some w'.record.val := by
  constructor
  · intro heq k w' hk hw'
    have hnew : newest (ws ++ [w]) k = some w' := by
      rw [newest_snoc, if_neg hk]
      exact hw'
    have hcur := replay_puts_iff.mp (congrFun heq k) w' hnew
    rwa [Function.update_of_ne (Ne.symm hk)] at hcur
  · intro hcur
    funext k
    refine replay_puts_iff.mpr fun w' hw' => ?_
    rw [newest_snoc] at hw'
    by_cases hk : w.record.key = k
    · rw [if_pos hk] at hw'
      cases hw'
      rw [hk]
      exact Function.update_self _ _ _
    · rw [if_neg hk] at hw'
      rw [Function.update_of_ne (Ne.symm hk)]
      exact hcur k w' hk hw'

namespace Conn

/-- The clerk flushes a batch on the request its client waits on, and `k` is not the
key that the request itself writes. -/
def Flushes (c : Conn) (k : Bytes) : Prop :=
  match c.client.pc with
  | .nopWait _ => True
  | .writeWait r _ => batchSize ≤ c.clerk.batchLength + r.length ∧ r.key ≠ k
  | _ => False

variable {c c' : Conn} {sh sh' : Shared}

/-- The record that the clerk takes. -/
theorem lookup_next {r : Record} {pos : Nat} (htake : (c.woken.take (c.next r pos)).Laid sh.mem) :
    (sh.take c.clerk.writeBuf (c.next r pos)).lookup = Function.update sh.lookup
      (c.next r pos).record.key (some (c.next r pos).record.val) :=
  lookup_take (k := c.woken) htake

/-- A turn other than `DELETE` and `CLOSE` does to the map what it records, exactly when
it flushes no value that is not current. -/
theorem Serves.lookup_iff {db : DB} (h : c.Serves sh c' sh')
    (hclose : c.client.pc ≠ .closeWait ∧ c.client.pc ≠ .closed)
    (hdelete : ∀ k, c.client.pc ≠ .deleteWait k) (hsh : sh.lookup = replay db sh.muts) :
    sh'.lookup = replay db sh'.muts ↔ ∀ k w, c.Flushes k → newest c.clerk.openRecs k = some w →
      sh.lookup k = some w.record.val := by
  cases h with
  | nop hpc =>
    have hmuts : (sh.flushed (records c.clerk.openRecs)).muts = sh.muts := rfl
    simp only [Flushes, hpc]
    rw [lookup_flushed, hmuts, ← hsh, funext_iff]
    constructor
    · intro heq k w _ hw
      exact replay_puts_iff.mp (heq k) w hw
    · intro hcur k
      exact replay_puts_iff.mpr fun w hw => hcur k w trivial hw
  | @short r pos hpc htake hlt =>
    have hmuts : (sh.take c.clerk.writeBuf (c.next r pos)).muts =
        sh.muts ++ [(r.key, some r.val)] := rfl
    simp only [Flushes, hpc]
    rw [hmuts, replay_snoc, ← hsh, lookup_next htake]
    refine ⟨fun _ k w hf => ?_, fun _ => rfl⟩
    omega
  | @full r pos hpc htake hge =>
    have hmuts : ((sh.take c.clerk.writeBuf (c.next r pos)).flushed
        (records (c.clerk.openRecs ++ [c.next r pos]))).muts =
        sh.muts ++ [(r.key, some r.val)] := rfl
    simp only [Flushes, hpc]
    rw [lookup_flushed, hmuts, replay_snoc, ← hsh, lookup_next htake]
    refine replay_take_iff.trans ⟨fun hcur k w hf => hcur k w hf.2, fun hcur k w hk => ?_⟩
    exact hcur k w ⟨hge, hk⟩
  | get hpc hkey hsize =>
    simp only [Flushes, hpc]
    exact ⟨fun _ _ _ hf => hf.elim, fun _ => hsh⟩
  | sync hpc =>
    simp only [Flushes, hpc]
    exact ⟨fun _ _ _ hf => hf.elim, fun _ => hsh⟩
  | @delete k hpc => exact absurd hpc (hdelete k)
  | closeFull hpc hne => rcases hpc with hpc | hpc <;> simp [hpc] at hclose
  | closeEmpty hpc he => rcases hpc with hpc | hpc <;> simp [hpc] at hclose

/-- A turn leaves the keys alone that are neither in the batch nor in the request. -/
theorem Serves.lookup_of_ne (h : c.Serves sh c' sh')
    (hclose : c.client.pc ≠ .closeWait ∧ c.client.pc ≠ .closed)
    (hdelete : ∀ k, c.client.pc ≠ .deleteWait k) {k : Bytes} (hk : c.Within fun r => r.key ≠ k) :
    sh'.lookup k = sh.lookup k := by
  have hnone : ∀ {ws : List Stored}, (∀ w ∈ ws, w.record.key ≠ k) → ∀ m : DB,
      replay m (Batch.puts (records ws)) k = m k := by
    intro ws hws m
    refine replay_puts_iff.mpr fun w hw => ?_
    obtain ⟨hmem, hkey⟩ := newest_mem hw
    exact absurd hkey (hws w hmem)
  have hasked : ∀ {r : Record} {pos : Nat}, c.client.pc = .writeWait r pos → r.key ≠ k := by
    intro r pos hpc
    refine hk.asked r ?_
    rw [hpc]
    exact List.mem_cons_self
  cases h with
  | nop hpc =>
    rw [lookup_flushed]
    exact hnone hk.opened _
  | @short r pos hpc htake hlt =>
    rw [lookup_next htake]
    exact Function.update_of_ne (Ne.symm (hasked hpc)) _ _
  | @full r pos hpc htake hge =>
    rw [lookup_flushed, hnone, lookup_next htake]
    · exact Function.update_of_ne (Ne.symm (hasked hpc)) _ _
    · intro w hw
      rcases List.mem_append.mp hw with hw | hw
      · exact hk.opened w hw
      · rw [List.mem_singleton.mp hw]
        exact hasked hpc
  | get hpc hkey hsize => rfl
  | sync hpc => rfl
  | @delete k hpc => exact absurd hpc (hdelete k)
  | closeFull hpc hne => rcases hpc with hpc | hpc <;> simp [hpc] at hclose
  | closeEmpty hpc he => rcases hpc with hpc | hpc <;> simp [hpc] at hclose

/-- The values of the open batch are what a `GET` finds. -/
def Current (c : Conn) (sh : Shared) : Prop :=
  ∀ k w, newest c.clerk.openRecs k = some w → sh.lookup k = some w.record.val

theorem Serves.current (h : c.Serves sh c' sh')
    (hclose : c.client.pc ≠ .closeWait ∧ c.client.pc ≠ .closed)
    (hdelete : ∀ k, c.client.pc ≠ .deleteWait k) (hcur : c.Current sh) : c'.Current sh' := by
  intro k w hw
  cases h with
  | nop hpc => cases hw
  | @short r pos hpc htake hlt =>
    have hw : newest (c.clerk.openRecs ++ [c.next r pos]) k = some w := hw
    rw [newest_snoc] at hw
    rw [lookup_next htake]
    split at hw
    · rename_i hkey
      cases hw
      rw [← hkey]
      exact Function.update_self _ _ _
    · rename_i hne
      rw [Function.update_of_ne (Ne.symm hne)]
      exact hcur k w hw
  | full hpc htake hge => cases hw
  | get hpc hkey hsize =>
    obtain ⟨st, n, v, hget⟩ := c.woken.get_eq_reply sh
    rw [hget] at hw
    exact hcur k w hw
  | sync hpc => exact hcur k w hw
  | @delete k hpc => exact absurd hpc (hdelete k)
  | closeFull hpc hne => rcases hpc with hpc | hpc <;> simp [hpc] at hclose
  | closeEmpty hpc he => rcases hpc with hpc | hpc <;> simp [hpc] at hclose

end Conn

/-! ## Servers whose clients neither delete nor close -/

namespace Server

/-- All connections stay open, and nobody deletes. -/
structure Writing (s : Server) : Prop where
  wf : s.Wf
  pointed : s.Pointed
  stays : ∀ x ∈ s.sessions, x.conn.client.pc ≠ .closeWait ∧ x.conn.client.pc ≠ .closed
  keeps : ∀ x ∈ s.sessions, ∀ k, x.conn.client.pc ≠ .deleteWait k
  small : ∀ k v, s.shared.db k = some v → v.length < 2 ^ 32

variable {s s' : Server} {tr : List (Server × Move)} {x : Session}

theorem init_writing (h : server.init s) : s.Writing := by
  refine ⟨init_wf h, init_pointed h, ?_, ?_, h.1.small⟩
  · intro x hx
    rw [h.2.2] at hx
    cases hx
  · intro x hx
    rw [h.2.2] at hx
    cases hx

/-- The step is no call of `SendDelete` or `SendClose`. -/
def Writes (_ : Server) (l : Move) : Prop :=
  ∀ i q, l = .conn i (.call q) → q ≠ .close ∧ ∀ k, q ≠ .delete k

theorem writes_of_calls (h : ∀ p ∈ clientCalls tr, p.2 ≠ .close ∧ ∀ k, p.2 ≠ .delete k) :
    Meets Writes tr := by
  intro e he i q hl
  refine h (i, q) (List.mem_filterMap.mpr ⟨e, he, ?_⟩)
  rw [hl]

theorem Connects.writing (h : s.Connects s' x) (hs : s.Writing) : s'.Writing := by
  obtain ⟨flag, m, m', -, hfresh⟩ := h.fresh
  have hidle : x.conn.client.pc = .idle := by
    rw [hfresh]
    rfl
  refine ⟨h.wf hs.wf, h.pointed hs.pointed, fun y hy => ?_, fun y hy => ?_, ?_⟩
  · rcases h.mem.mp hy with hy | rfl
    · exact hs.stays y hy
    · rw [hidle]
      exact ⟨by simp, by simp⟩
  · rcases h.mem.mp hy with hy | rfl
    · exact hs.keeps y hy
    · rw [hidle]
      simp
  · rw [h.shared]
    exact hs.small

namespace Steps

variable {s s' : Server} {i : Nat} {l : Label} {x : Session} {c : Conn}

theorem writing (h : s.Steps s' i l x c) (hs : s.Writing) (hl : s.Writes (.conn i l)) :
    s'.Writing := by
  have hinv := hs.wf.inv i x h.session
  have hx := List.mem_of_getElem? h.session
  refine ⟨h.wf hs.wf, ?_, h.forall_sessions hs.stays ?_, h.forall_sessions hs.keeps ?_, ?_⟩
  · by_cases hserve : l = .serve
    · subst hserve
      refine (h.pointed_iff hs.wf hs.pointed).mpr fun y hy hpc => ?_
      have hstays := hs.stays y (List.mem_of_getElem? hy)
      rcases hpc with hpc | hpc
      · exact absurd hpc hstays.1
      · exact absurd hpc hstays.2
    · exact h.pointed_of_ne hs.wf hs.pointed hserve
  · exact Conn.step_stays hinv h.step (fun q hq => (hl i q (by rw [hq])).1) (hs.stays x hx)
  · exact Conn.step_deletes hinv h.step (fun q hq => (hl i q (by rw [hq])).2) (hs.stays x hx).1
      (hs.keeps x hx)
  · by_cases hserve : l = .serve
    · subst hserve
      exact (serve_serves hinv.phase hinv.batch h.step).1.small hs.small
    · have hbooks := Conn.step_books h.step hserve
      rw [hbooks.db]
      exact hs.small

/-- Steps other than the clerk's leave what a `GET` finds. -/
theorem lookup (h : s.Steps s' i l x c) (hs : s.Writing) (hl : l ≠ .serve) :
    s'.shared.lookup = s.shared.lookup := by
  obtain ⟨hopen, -, hindex, hdb, -⟩ := Conn.step_books h.step hl
  have hwf' := h.wf hs.wf
  funext k
  cases he : s.shared.index k with
  | none =>
    rw [Shared.lookup_none he, Shared.lookup_none (by rw [hindex]; exact he), hdb]
  | some e =>
    -- the record is where it was, in a batch that is still open
    obtain ⟨y, hy, hrun, w, hw, rfl, rfl⟩ := hs.pointed k e he
    rw [(hs.wf.laid hy hrun).lookup hw he]
    rw [← hindex] at he
    obtain ⟨j, hj⟩ := List.getElem?_of_mem hy
    by_cases hji : j = i
    · subst hji
      rw [h.session] at hj
      cases hj
      refine (hwf'.laid h.mem_self ?_).lookup (by rw [hopen]; exact hw) ?_
      · rcases Conn.step_clerk h.step hl with hpc | ⟨⟨sync, hpc⟩, -⟩
        · exact hpc.trans hrun
        · rw [hrun] at hpc
          cases hpc
      · rw [Conn.step_writeBuf (hs.wf.inv j x h.session) h.step]
        exact he
    · rw [← h.other hji] at hj
      exact (hwf'.laid (List.mem_of_getElem? hj) hrun).lookup hw he

end Steps

theorem Writing.step {l : Move} (hs : s.Writing) (hl : s.Writes l) (h : server.step s l = some s') :
    s'.Writing := by
  cases l with
  | connect buffer flag m m' =>
    obtain ⟨x, hc⟩ := connect_step h
    exact hc.writing hs
  | conn i l =>
    obtain ⟨x, c, hc⟩ := conn_step h
    exact hc.writing hs hl

/-! ## Whole runs -/

/-- A `GET` finds, and is answered with, the value of the last write of its key that any
clerk has taken, or what the store `db` held at first. -/
structure NoLostUpdate (db : DB) (s : Server) : Prop where
  current : s.shared.lookup = replay db s.shared.muts
  answers : ∀ k : Key, s.Answered k (replay db s.shared.muts k.bytes)

/-- A clerk flushes its batch only when the last value the batch has for a key is what a
`GET` of that key finds. -/
def FlushesCurrent (s : Server) : Move → Prop
  | .conn i .serve => ∀ x, s.sessions[i]? = some x → ∀ k w, x.conn.Flushes k →
      newest x.conn.clerk.openRecs k = some w → s.shared.lookup k = some w.record.val
  | _ => True

theorem Writing.noLostUpdate_iff_current {db : DB} (hs : s.Writing) :
    s.NoLostUpdate db ↔ s.shared.lookup = replay db s.shared.muts := by
  refine ⟨NoLostUpdate.current, fun hcur => ⟨hcur, fun k => ?_⟩⟩
  rw [← hcur]
  exact hs.pointed.answered hs.wf fun _ => hs.small k.bytes

theorem Writing.current_iff {db : DB} {l : Move} (hs : s.Writing)
    (hcur : s.shared.lookup = replay db s.shared.muts) (h : server.step s l = some s') :
    s'.shared.lookup = replay db s'.shared.muts ↔ s.FlushesCurrent l := by
  cases l with
  | connect buffer flag m m' =>
    obtain ⟨x, hc⟩ := connect_step h
    rw [hc.shared]
    exact ⟨fun _ => trivial, fun _ => hcur⟩
  | conn i l =>
    obtain ⟨x, c, hc⟩ := conn_step h
    by_cases hl : l = .serve
    · subst hl
      have hinv := hs.wf.inv i x hc.session
      have hx := List.mem_of_getElem? hc.session
      have hiff := (serve_serves hinv.phase hinv.batch hc.step).1.lookup_iff (hs.stays x hx)
        (hs.keeps x hx) hcur
      rw [hiff]
      constructor
      · intro hflush y hy
        rw [hc.session] at hy
        cases hy
        exact hflush
      · intro hflush
        exact hflush x hc.session
    · have hbooks := Conn.step_books hc.step hl
      rw [hc.lookup hs hl, hbooks.muts]
      refine ⟨fun _ => ?_, fun _ => hcur⟩
      cases l with
      | serve => exact absurd rfl hl
      | _ => trivial

/-- Client 0 writes `r₁`, then client 1 writes `r₂`. -/
theorem two_writers (r₁ r₂ : Record) :
    ∃ tr bits c₁ c₂ sh, server.Run idle tr ⟨0, bits, [⟨c₁, some 0⟩, ⟨c₂, some 1⟩], sh⟩ ∧
      clientCalls tr = [(0, .write r₁), (1, .write r₂)] ∧ Untouched (c₁, sh) ∧
      c₁.ring = (boot.1.ring.advance r₁).take ⟨0, r₁, ringHeader⟩ ∧
      sh.muts = [(r₁.key, some r₁.val), (r₂.key, some r₂.val)] := by
  obtain ⟨tr₀, hrun₀, hcalls₀⟩ := two_join
  let s₀ : Server := (idle.joined 0).joined 1
  obtain ⟨tr₁, c₁, m₁, sh₁, hrun₁, hcalls₁, hsh₁, hu₁, hring₁, -⟩ :=
    first_write (s := s₀) (i := 0) (a := 0) rfl r₁
  obtain ⟨tr₂, c₂, m₂, sh₂, hrun₂, hcalls₂, hsh₂, -⟩ :=
    first_write (s := s₀.put 0 (some 0) (c₁, sh₁)) (i := 1) (a := maxAsyncSize) rfl r₂
  have hrun := (hrun₀.trans hrun₁).trans hrun₂
  -- the second write leaves the ring of the first client alone
  have hinv : c₁.Inv sh₂.mem :=
    (reachable_wf ⟨idle, _, idle_init, hrun⟩).inv 0 ⟨c₁, some 0⟩ rfl
  refine ⟨_, s₀.bitmap, c₁, c₂, sh₂, hrun, ?_, hu₁.frame hinv, hring₁, ?_⟩
  · simp only [clientCalls_append, hcalls₀, hcalls₁, hcalls₂]
    rfl
  · rw [hsh₂]
    show sh₁.muts ++ _ = _
    rw [hsh₁]
    rfl

/-- The two write one key, and then client 0 fills its batch with `r₃`. The flush brings
`r₁` back. -/
theorem older_value_flushed {r₁ r₂ r₃ : Record} (hkey : r₂.key = r₁.key) (hne : r₃.key ≠ r₁.key)
    (hshort : r₁.length + r₃.length < batchSize)
    (hfull : batchSize ≤ r₁.length + r₃.length + r₃.length) :
    ∃ tr s, server.Run idle tr s ∧
      clientCalls tr = [(0, .write r₁), (1, .write r₂), (0, .write r₃), (0, .write r₃)] ∧
      s.shared.lookup r₁.key = some r₁.val ∧
      replay idle.shared.db s.shared.muts r₁.key = some r₂.val := by
  obtain ⟨tr₂, bits, c₁, c₂, sh₂, hrun₂, hcalls₂, hu₂, hring₂, hmuts₂⟩ := two_writers r₁ r₂
  let s₂ : Server := ⟨0, bits, [⟨c₁, some 0⟩, ⟨c₂, some 1⟩], sh₂⟩
  obtain ⟨tr₃, c₃, m₃, sh₃, hrun₃, hcalls₃, hsh₃, hu₃, hring₃, -⟩ :=
    writes (s := s₂) (i := 0) (x := ⟨c₁, some 0⟩) rfl hu₂ r₃
  obtain ⟨tr₄, c₄, m₄, sh₄, hrun₄, hcalls₄, hsh₄, -⟩ :=
    writes (s := s₂.put 0 (some 0) (c₃, sh₃)) (i := 0) (x := ⟨c₃, some 0⟩) rfl hu₃ r₃
  have hlen₁ := r₁.length_le
  have hlen₃ := r₃.length_le
  have hroom : ringHeader + 3 * (maxRequest - ringHeader) < maxAsyncSize := by decide
  have hsize₁ : c₁.ring.size = r₁.length := by
    rw [hring₂]
    exact Nat.add_zero _
  have hhead₁ : c₁.ring.head = ringHeader + r₁.length := by
    rw [hring₂]
    rfl
  obtain ⟨hring, hshared⟩ := sendWrite_short (g := c₁.ring) (r := r₃) (by omega) (by omega)
  have hring₃ : c₃.ring = _ := hring₃.trans hring
  have hsh₃ : sh₃ = _ := hsh₃.trans (hshared _ _)
  have hopen₃ : c₃.ring.openRecs = [⟨0, r₁, ringHeader⟩, c₁.ring.next r₃] := by
    rw [hring₃]
    show c₁.ring.openRecs ++ _ = _
    rw [hring₂]
    rfl
  have hsize₃ : c₃.ring.size = r₁.length + r₃.length := by
    unfold Ring.size
    rw [hopen₃]
    exact congrArg (r₁.length + ·) (Nat.add_zero _)
  have hhead₃ : c₃.ring.head = ringHeader + r₁.length + r₃.length := by
    rw [hring₃]
    show c₁.ring.head + _ = _
    rw [hhead₁]
  have hsh₄ : sh₄ = _ := hsh₄.trans
    (sendWrite_full (g := c₃.ring) (r := r₃) (by omega) (by omega) _ _)
  refine ⟨_, _, (hrun₂.trans hrun₃).trans hrun₄, ?_, ?_, ?_⟩
  · simp only [clientCalls_append, hcalls₂, hcalls₃, hcalls₄]
    rfl
  · show Shared.lookup sh₄ r₁.key = _
    have hnewest : newest (c₃.ring.openRecs ++ [c₃.ring.next r₃]) r₁.key =
        some ⟨0, r₁, ringHeader⟩ := by
      rw [hopen₃]
      simp [newest, lastOf, Ring.next, hne]
    rw [hsh₄, lookup_flushed, replay_apply, lastOf_puts, hnewest]
    rfl
  · have hmuts : sh₄.muts = [(r₁.key, some r₁.val), (r₂.key, some r₂.val),
        (r₃.key, some r₃.val), (r₃.key, some r₃.val)] := by
      rw [hsh₄]
      show sh₃.muts ++ _ = _
      rw [hsh₃]
      show (sh₂.muts ++ _) ++ _ = _
      rw [hmuts₂]
      rfl
    show replay _ sh₄.muts r₁.key = _
    rw [hmuts, replay_apply]
    simp [lastOf, hkey, hne]

/-- In a run without `DELETE` and `CLOSE` no update is lost exactly when no clerk flushes
a value that another clerk has replaced. -/
theorem no_lost_update_iff {s₀ : Server} (hinit : server.init s₀) (hrun : server.Run s₀ tr s)
    (hcalls : ∀ p ∈ clientCalls tr, p.2 ≠ .close ∧ ∀ k, p.2 ≠ .delete k) :
    Throughout (NoLostUpdate s₀.shared.db) tr s ↔ Meets FlushesCurrent tr := by
  have hwriting := init_writing hinit
  have hcur : s₀.shared.lookup = replay s₀.shared.db s₀.shared.muts := by
    funext k
    rw [Shared.lookup_none (by rw [hinit.1.index]), hinit.1.muts]
    rfl
  refine hrun.all_iff Writes hwriting (hwriting.noLostUpdate_iff_current.mpr hcur) ?_ ?_
    (writes_of_calls hcalls)
  · intro s l s' hs hl hstep
    exact hs.step hl hstep
  · intro s l s' hs hno hl hstep
    rw [(hs.step hl hstep).noLostUpdate_iff_current]
    exact hs.current_iff hno.current hstep

/-! ## Clients with keys of their own -/

/-- The client writes one of its keys. -/
def WritesOwned (owner : Bytes → Nat) (s : Server) (l : Move) : Prop :=
  s.Writes l ∧ ∀ i r, l = .conn i (.call (.write r)) → owner r.key = i

/-- Each batch holds keys of its client, with their current values. -/
structure Separate (owner : Bytes → Nat) (s : Server) : Prop where
  writing : s.Writing
  within : ∀ (i : Nat) (x : Session), s.sessions[i]? = some x →
    x.conn.Within fun r => owner r.key = i
  current : ∀ x ∈ s.sessions, x.conn.Current s.shared

theorem init_separate (owner : Bytes → Nat) (h : server.init s) : s.Separate owner := by
  refine ⟨init_writing h, fun i x hx => ?_, fun x hx => ?_⟩
  · rw [h.2.2] at hx
    cases hx
  · rw [h.2.2] at hx
    cases hx

theorem Connects.separate {owner : Bytes → Nat} (h : s.Connects s' x) (hs : s.Separate owner) :
    s'.Separate owner := by
  obtain ⟨flag, m, m', -, hfresh⟩ := h.fresh
  refine ⟨h.writing hs.writing, fun j y hy => ?_, fun y hy => ?_⟩
  · rcases h.inv hy with hy | ⟨-, rfl⟩
    · exact hs.within j y hy
    · rw [hfresh]
      constructor
      · intro w hw
        cases hw
      · intro r hr
        cases hr
  · rw [h.shared]
    rcases h.mem.mp hy with hy | rfl
    · exact hs.current y hy
    · rw [hfresh]
      intro k w hw
      cases hw

theorem Steps.separate {owner : Bytes → Nat} {i : Nat} {l : Label} {c : Conn}
    (h : s.Steps s' i l x c) (hs : s.Separate owner) (hl : s.WritesOwned owner (.conn i l)) :
    s'.Separate owner := by
  have hinv := hs.writing.wf.inv i x h.session
  have hx := List.mem_of_getElem? h.session
  have hwithin := hs.within i x h.session
  refine ⟨h.writing hs.writing hl.1, fun j y hy => ?_, fun y hy => ?_⟩
  · rcases h.inv hy with ⟨rfl, rfl⟩ | ⟨-, hy⟩
    · exact hwithin.step hinv h.step fun r hr => hl.2 j r (by rw [hr])
    · exact hs.within j y hy
  · obtain ⟨j, hj⟩ := List.getElem?_of_mem hy
    by_cases hserve : l = .serve
    · subst hserve
      have hsv := (serve_serves hinv.phase hinv.batch h.step).1
      rcases h.inv hj with ⟨-, rfl⟩ | ⟨hji, hj⟩
      · exact hsv.current (hs.writing.stays x hx) (hs.writing.keeps x hx) (hs.current x hx)
      · -- a key of another client
        intro k w hw
        obtain ⟨hmem, rfl⟩ := newest_mem hw
        have howner : owner w.record.key = j := (hs.within j y hj).opened w hmem
        have hne : x.conn.Within fun r => r.key ≠ w.record.key :=
          ⟨fun v hv heq => hji (by rw [← howner, ← heq]; exact hwithin.opened v hv),
            fun r hr heq => hji (by rw [← howner, ← heq]; exact hwithin.asked r hr)⟩
        rw [hsv.lookup_of_ne (hs.writing.stays x hx) (hs.writing.keeps x hx) hne]
        exact hs.current y (List.mem_of_getElem? hj) _ w hw
    · have hlookup := h.lookup hs.writing hserve
      intro k w hw
      rw [hlookup]
      rcases h.inv hj with ⟨-, rfl⟩ | ⟨-, hj⟩
      · have hw : newest c.clerk.openRecs k = some w := hw
        rw [(Conn.step_books h.step hserve).openRecs] at hw
        exact hs.current x hx k w hw
      · exact hs.current y (List.mem_of_getElem? hj) k w hw

/-- Clients that write keys of their own flush what is current. -/
theorem flushesCurrent_of_owned (owner : Bytes → Nat) {s₀ : Server} (hinit : server.init s₀)
    (hrun : server.Run s₀ tr s)
    (hcalls : ∀ p ∈ clientCalls tr, p.2 ≠ .close ∧ (∀ k, p.2 ≠ .delete k) ∧
      ∀ r, p.2 = .write r → owner r.key = p.1) : Meets FlushesCurrent tr := by
  have hok : Meets (WritesOwned owner) tr := by
    intro e he
    refine ⟨writes_of_calls (fun p hp => ⟨(hcalls p hp).1, (hcalls p hp).2.1⟩) e he, ?_⟩
    intro i r hl
    refine (hcalls (i, .write r) (List.mem_filterMap.mpr ⟨e, he, ?_⟩)).2.2 r rfl
    rw [hl]
  have hseparate : Throughout (Separate owner) tr s := hrun.throughout hok fun tr s hrun hok => by
    refine hrun.invariant (init_separate owner hinit) (fun s l s' hs hl hstep => ?_) hok
    cases l with
    | connect buffer flag m m' =>
      obtain ⟨x, hc⟩ := connect_step hstep
      exact hc.separate hs
    | conn i l =>
      obtain ⟨x, c, hc⟩ := conn_step hstep
      exact hc.separate hs hl
  rintro ⟨s, l⟩ hp
  cases l with
  | connect buffer flag m m' => trivial
  | conn i l =>
    cases l with
    | serve =>
      intro x hx k w _ hw
      exact (hseparate.2 _ hp).current x (List.mem_of_getElem? hx) k w hw
    | _ => trivial

/-- Two clients with a key each: client 1 fills a batch while client 0 has one open, client 0
fills its own, and each reads the key of the other. -/
theorem two_clients_lose_nothing :
    ∃ tr s, server.Run idle tr s ∧
      clientCalls tr = [(0, .write (sample 1 8175)), (0, .write (sample 1 8174)),
        (1, .write (sample 2 8175)), (1, .write (sample 2 8175)), (1, .write (sample 2 8174)),
        (1, .get (sampleKey 1)), (0, .write (sample 1 8173)), (0, .get (sampleKey 2))] ∧
      Throughout (NoLostUpdate idle.shared.db) tr s := by
  obtain ⟨tr₀, hrun₀, hcalls₀⟩ := two_join
  let s₀ : Server := (idle.joined 0).joined 1
  obtain ⟨⟨c₁, sh₁⟩, hd₁, hu₁⟩ := (init_untouched boot_init).calls
    [.write (sample 1 8175), .write (sample 1 8174)] (by simp)
  obtain ⟨tr₁, hrun₁, hcalls₁⟩ := drives (s := s₀) (i := 0) (x := ⟨boot.1, some 0⟩) rfl hd₁
  obtain ⟨⟨c₂, sh₂⟩, hd₂, -⟩ :=
    (fresh_untouched sh₁ maxAsyncSize (fun _ => 0) (fun _ => 0)
      (show 0 ≠ clientDone by decide)).calls
      [.write (sample 2 8175), .write (sample 2 8175), .write (sample 2 8174), .get (sampleKey 1)]
      (by simp)
  obtain ⟨tr₂, hrun₂, hcalls₂⟩ := drives (s := s₀.put 0 (some 0) (c₁, sh₁)) (i := 1)
    (x := ⟨.fresh maxAsyncSize 0 (fun _ => 0) (fun _ => 0), some 1⟩) rfl hd₂
  let s₂ : Server := (s₀.put 0 (some 0) (c₁, sh₁)).put 1 (some 1) (c₂, sh₂)
  have hrun := (hrun₀.trans hrun₁).trans hrun₂
  have hinv : c₁.Inv sh₂.mem :=
    (reachable_wf ⟨idle, _, idle_init, hrun⟩).inv 0 ⟨c₁, some 0⟩ rfl
  obtain ⟨p₃, hd₃, -⟩ := (hu₁.frame hinv).calls
    [.write (sample 1 8173), .get (sampleKey 2)] (by simp)
  obtain ⟨tr₃, hrun₃, hcalls₃⟩ := drives (s := s₂) (i := 0) (x := ⟨c₁, some 0⟩) rfl hd₃
  obtain ⟨tr, hrun, hcalls⟩ : ∃ tr, server.Run idle tr (s₂.put 0 (some 0) p₃) ∧
      clientCalls tr = [(0, .write (sample 1 8175)), (0, .write (sample 1 8174)),
        (1, .write (sample 2 8175)), (1, .write (sample 2 8175)), (1, .write (sample 2 8174)),
        (1, .get (sampleKey 1)), (0, .write (sample 1 8173)), (0, .get (sampleKey 2))] := by
    refine ⟨_, hrun.trans hrun₃, ?_⟩
    simp only [clientCalls_append, hcalls₀, hcalls₁, hcalls₂, hcalls₃]
    rfl
  refine ⟨tr, _, hrun, hcalls, (no_lost_update_iff idle_init hrun ?_).mpr
    (flushesCurrent_of_owned (fun k => if k = [1] then 0 else 1) idle_init hrun ?_)⟩
  · rw [hcalls]
    simp
  · rw [hcalls]
    simp

/-- Client 0 puts 8175 bytes under `[1]`, client 1 then puts one byte there, and client 0
fills its batch: a `GET` of `[1]` finds the 8175 bytes. -/
theorem older_value_flushed_sample :
    ∃ tr s, server.Run idle tr s ∧
      clientCalls tr = [(0, .write (sample 1 8175)), (1, .write (sample 1 1)),
        (0, .write (sample 3 8175)), (0, .write (sample 3 8175))] ∧
      s.shared.lookup [1] = some (List.replicate 8175 1) ∧
      replay idle.shared.db s.shared.muts [1] = some [1] ∧
      ¬ s.NoLostUpdate idle.shared.db := by
  have hkey : (sample 1 1).key = (sample 1 8175).key := rfl
  have hne : (sample 3 8175).key ≠ (sample 1 8175).key := by decide
  obtain ⟨tr, s, hrun, hcalls, hlookup, hlast⟩ := older_value_flushed hkey hne
    (by rw [length_sample, length_sample]; decide) (by rw [length_sample, length_sample]; decide)
  refine ⟨tr, s, hrun, hcalls, hlookup, hlast, fun hno => ?_⟩
  have heq : some (List.replicate 8175 (1 : UInt8)) = some [1] :=
    hlookup.symm.trans ((congrFun hno.current [1]).trans hlast)
  have hlen := congrArg List.length (Option.some.inj heq)
  rw [List.length_replicate] at hlen
  cases hlen

end Server

end LogDirect.Hybrid
