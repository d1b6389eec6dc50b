import LogDirect.Hybrid.Close
import LogDirect.Hybrid.Server

/-!
# What `im_index_` points at

A `PUT` enters the record's place in the ring into the shared `im_index_`; the
flush of a batch removes the entries of its keys. An entry is valid while the
record lies in the open batch of a running clerk (`Names`): the rings in use do
not meet, so nothing else can write there. The one turn that may leave an entry
without its record is `CLOSE`, which stores the batch but erases nothing;
`index_valid_iff` says exactly when it does no harm.
-/

namespace LogDirect.Hybrid

open Lib TSys Conn

/-! ## Valid entries -/

/-- The entry `e` of key `k` is for a record in the open batch of this clerk, and the
clerk is running. -/
def Conn.Indexed (c : Conn) (k : Bytes) (e : DBIndex) : Prop :=
  c.clerk.pc = .running ∧
    ∃ w ∈ c.clerk.openRecs, w.record.key = k ∧ e = w.entry c.clerk.writeBuf

namespace Server

/-- Every entry is for a record in the open batch of some running clerk. -/
def Pointed (s : Server) : Prop :=
  ∀ k e, s.shared.index k = some e → ∃ x ∈ s.sessions, x.conn.Indexed k e

/-- A `GET` of `k` that has arrived anywhere is answered with `v`. -/
def Answered (s : Server) (k : Key) (v : Option Bytes) : Prop :=
  ∀ x ∈ s.sessions, x.conn.client.pc = .getWait k → ∀ c sh,
    x.conn.step s.shared .serve = some (c, sh) →
      c.clerk.served = x.conn.clerk.served ++ [(.get k, .value v)]

/-- Every entry points at an intact record of its key in the open batch of a running
clerk, and a `GET` that finds an entry is answered with a value some client has
stored under the key. -/
structure IndexValid (s : Server) : Prop where
  entry : ∀ k e, s.shared.index k = some e → ∃ x ∈ s.sessions, x.conn.clerk.pc = .running ∧
    ∃ w ∈ x.conn.clerk.openRecs, w.record.key = k ∧ e = w.entry x.ring ∧
      s.shared.mem.read (x.ring + w.pos) w.record.length = w.record.encode
  value : ∀ (k : Key) e, s.shared.index k.bytes = some e →
    ∃ v, (k.bytes, some v) ∈ s.shared.muts ∧ s.Answered k (some v)

/-- The records of the open batches have been stored by their clients. -/
def Recorded (s : Server) : Prop :=
  ∀ x ∈ s.sessions, ∀ w ∈ x.conn.clerk.openRecs,
    (w.record.key, some w.record.val) ∈ s.shared.muts

variable {s : Server}

theorem Wf.laid (hwf : s.Wf) {x : Session} (hx : x ∈ s.sessions)
    (hrun : x.conn.clerk.pc = .running) : x.conn.clerk.Laid s.shared.mem := by
  obtain ⟨i, hi⟩ := List.getElem?_of_mem hx
  exact ((hwf.inv i x hi).batch hrun).laid

/-- The answer to a `GET` is what the lookup finds. -/
theorem Pointed.answered (h : s.Pointed) (hwf : s.Wf) {k : Key}
    (hdb : s.shared.index k.bytes = none → ∀ v, s.shared.db k.bytes = some v → v.length < 2 ^ 32) :
    s.Answered k (s.shared.lookup k.bytes) := by
  intro x hx hpc c sh hstep
  obtain ⟨i, hi⟩ := List.getElem?_of_mem hx
  have hinv := hwf.inv i x hi
  obtain ⟨hkey, hsize, rfl, -⟩ := (serve_serves hinv.phase hinv.batch hstep).1.gets hpc
  have hidx : ∀ e, s.shared.index k.bytes = some e → e.valueSize < 2 ^ 32 := by
    intro e he
    obtain ⟨-, -, -, w, -, -, rfl⟩ := h k.bytes e he
    exact Nat.lt_trans w.record.val_lt (by decide)
  have hret := x.conn.get_ret hkey hsize hidx hdb
  obtain ⟨st, n, v, hget⟩ := x.conn.woken.get_eq_reply s.shared
  rw [hget] at hret ⊢
  show x.conn.clerk.served ++ x.conn.client.pc.call.toList.map _ = _
  rw [hpc]
  exact congrArg (fun r => x.conn.clerk.served ++ [(Call.get k, r)]) hret

theorem indexValid_iff_pointed (hwf : s.Wf) (hrec : s.Recorded) : s.IndexValid ↔ s.Pointed := by
  constructor
  · intro h k e he
    obtain ⟨x, hx, hrun, w, hw, hkey, hentry, -⟩ := h.entry k e he
    exact ⟨x, hx, hrun, w, hw, hkey, hentry⟩
  · intro h
    constructor
    · intro k e he
      obtain ⟨x, hx, hrun, w, hw, hkey, hentry⟩ := h k e he
      exact ⟨x, hx, hrun, w, hw, hkey, hentry, (hwf.laid hx hrun).intact w hw⟩
    · intro k e he
      obtain ⟨x, hx, hrun, w, hw, hkey, rfl⟩ := h k.bytes e he
      have hanswer := h.answered hwf (k := k) fun hnone => by
        rw [he] at hnone
        cases hnone
      rw [← hkey] at he hanswer ⊢
      rw [(hwf.laid hx hrun).lookup hw he] at hanswer
      exact ⟨w.record.val, hrec x hx w hw, hanswer⟩

end Server

/-! ## What a turn of the clerk does to the index -/

theorem Shared.take_index_self (sh : Shared) (writeBuf : Nat) (w : Stored) :
    (sh.take writeBuf w).index w.record.key = some (w.entry writeBuf) :=
  Function.update_self _ _ _

theorem Shared.flushed_index {sh : Shared} {ws : List Stored} {k : Bytes} {e : DBIndex}
    (h : (sh.flushed (records ws)).index k = some e) :
    sh.index k = some e ∧ ∀ w ∈ ws, w.record.key ≠ k := by
  have h : eraseAll sh.index ((records ws).map Record.key) k = some e := h
  rw [eraseAll_apply] at h
  split at h
  · cases h
  · rename_i hk
    refine ⟨h, fun w hw hkey => hk ?_⟩
    rw [← hkey]
    exact List.mem_map_of_mem (List.mem_map_of_mem hw)

namespace Conn

variable {c c' : Conn} {sh sh' : Shared}

theorem Indexed.of_openRecs {k : Bytes} {e : DBIndex} (h : c.Indexed k e)
    (hpc : c'.clerk.pc = c.clerk.pc) (hbuf : c'.clerk.writeBuf = c.clerk.writeBuf)
    (hsub : ∀ w ∈ c.clerk.openRecs, w ∈ c'.clerk.openRecs) : c'.Indexed k e := by
  obtain ⟨hrun, w, hw, hkey, hentry⟩ := h
  refine ⟨hpc.trans hrun, w, hsub w hw, hkey, ?_⟩
  rw [hbuf]
  exact hentry

/-- An entry there after a turn is for a record of this batch, or was there before and
is still good if it was for one. `CLOSE` is the exception. -/
theorem Serves.indexed (h : c.Serves sh c' sh') (hrun : c.clerk.pc = .running)
    (hclose : c.client.pc = .closeWait ∨ c.client.pc = .closed →
      ∀ w ∈ c.clerk.openRecs, sh.index w.record.key ≠ some (w.entry c.clerk.writeBuf)) {k : Bytes}
    {e : DBIndex} (he : sh'.index k = some e) :
    c'.Indexed k e ∨ (sh.index k = some e ∧ (c.Indexed k e → c'.Indexed k e)) := by
  cases h with
  | nop hpc =>
    obtain ⟨he, hkeys⟩ := Shared.flushed_index he
    refine .inr ⟨he, fun hold => ?_⟩
    obtain ⟨-, w, hw, hkey, -⟩ := hold
    exact absurd hkey (hkeys w hw)
  | @short r pos hpc htake hlt =>
    by_cases hk : r.key = k
    · subst hk
      have he : Function.update sh.index r.key _ r.key = some e := he
      rw [Function.update_self] at he
      refine .inl ⟨hrun, c.next r pos, ?_, rfl, (Option.some.inj he).symm⟩
      exact List.mem_append_right _ (List.mem_singleton.mpr rfl)
    · have he : Function.update sh.index r.key _ k = some e := he
      rw [Function.update_of_ne (Ne.symm hk)] at he
      refine .inr ⟨he, fun hold => hold.of_openRecs rfl rfl fun w hw => ?_⟩
      exact List.mem_append_left _ hw
  | @full r pos hpc htake hge =>
    obtain ⟨he, hkeys⟩ := Shared.flushed_index he
    have hk : r.key ≠ k := hkeys (c.next r pos) (by simp)
    have he : Function.update sh.index r.key _ k = some e := he
    rw [Function.update_of_ne (Ne.symm hk)] at he
    refine .inr ⟨he, fun hold => ?_⟩
    obtain ⟨-, w, hw, hkey, -⟩ := hold
    exact absurd hkey (hkeys w (List.mem_append_left _ hw))
  | get hpc hkey hsize =>
    obtain ⟨st, n, v, hget⟩ := c.woken.get_eq_reply sh
    rw [hget]
    exact .inr ⟨he, fun hold => hold.of_openRecs rfl rfl fun w hw => hw⟩
  | sync hpc => exact .inr ⟨he, fun hold => hold.of_openRecs rfl rfl fun w hw => hw⟩
  | delete hpc => exact .inr ⟨he, fun hold => hold.of_openRecs rfl rfl fun w hw => hw⟩
  | closeFull hpc hne =>
    refine .inr ⟨he, fun hold => ?_⟩
    obtain ⟨-, w, hw, rfl, rfl⟩ := hold
    exact absurd he (hclose hpc w hw)
  | closeEmpty hpc hempty =>
    refine .inr ⟨he, fun hold => ?_⟩
    obtain ⟨-, w, hw, rfl, rfl⟩ := hold
    exact absurd he (hclose hpc w hw)

/-- The turn that takes `CLOSE` empties the batch and leaves the index alone. -/
theorem Serves.closes (h : c.Serves sh c' sh')
    (hpc : c.client.pc = .closeWait ∨ c.client.pc = .closed) :
    c'.clerk.pc ≠ .running ∧ c'.clerk.openRecs = [] ∧ sh'.index = sh.index := by
  cases h with
  | closeFull hpc' hne => exact ⟨by simp [Clerk.lastFlushed], rfl, rfl⟩
  | closeEmpty hpc' he => exact ⟨by simp, he, rfl⟩
  | _ => simp_all

/-- A turn records what it takes into the batch. -/
theorem Serves.recorded (h : c.Serves sh c' sh') :
    sh.muts <+: sh'.muts ∧ ∀ w ∈ c'.clerk.openRecs,
      w ∈ c.clerk.openRecs ∨ (w.record.key, some w.record.val) ∈ sh'.muts := by
  cases h with
  | nop hpc => exact ⟨List.prefix_refl _, fun w hw => by cases hw⟩
  | @short r pos hpc htake hlt =>
    refine ⟨List.prefix_append _ _, fun w hw => ?_⟩
    rcases List.mem_append.mp hw with hw | hw
    · exact .inl hw
    · rw [List.mem_singleton.mp hw]
      exact .inr (List.mem_append_right _ (List.mem_singleton.mpr rfl))
  | full hpc htake hge => exact ⟨List.prefix_append _ _, fun w hw => by cases hw⟩
  | get hpc hkey hsize =>
    obtain ⟨st, n, v, hget⟩ := c.woken.get_eq_reply sh
    rw [hget]
    exact ⟨List.prefix_refl _, fun w hw => .inl hw⟩
  | sync hpc => exact ⟨List.prefix_refl _, fun w hw => .inl hw⟩
  | delete hpc => exact ⟨List.prefix_append _ _, fun w hw => .inl hw⟩
  | closeFull hpc hne => exact ⟨List.prefix_refl _, fun w hw => by cases hw⟩
  | closeEmpty hpc he => exact ⟨List.prefix_refl _, fun w hw => .inl hw⟩

end Conn

/-! ## Whole runs -/

namespace Server

/-- A clerk takes `CLOSE` only when no entry points into its open batch. -/
def ClosesUnindexed (s : Server) : Move → Prop
  | .conn i .serve => ∀ x, s.sessions[i]? = some x →
      x.conn.client.pc = .closeWait ∨ x.conn.client.pc = .closed →
      ∀ w ∈ x.conn.clerk.openRecs, s.shared.index w.record.key ≠ some (w.entry x.ring)
  | _ => True

variable {s s' : Server} {x : Session} {i : Nat} {tr : List (Server × Move)}

theorem Connects.mem (h : s.Connects s' x) {y : Session} :
    y ∈ s'.sessions ↔ y ∈ s.sessions ∨ y = x := by
  rw [h.sessions, List.mem_append, List.mem_singleton]

theorem Connects.recorded (h : s.Connects s' x) (hrec : s.Recorded) : s'.Recorded := by
  intro y hy w hw
  rw [h.shared]
  rcases h.mem.mp hy with hy | rfl
  · exact hrec y hy w hw
  · obtain ⟨flag, m, m', -, hfresh⟩ := h.fresh
    rw [hfresh] at hw
    cases hw

theorem Connects.pointed (h : s.Connects s' x) (hp : s.Pointed) : s'.Pointed := by
  intro k e he
  rw [h.shared] at he
  obtain ⟨y, hy, hidx⟩ := hp k e he
  exact ⟨y, h.mem.mpr (.inl hy), hidx⟩

namespace Steps

variable {s s' : Server} {i : Nat} {l : Label} {x : Session} {c : Conn}

theorem mem_self (h : s.Steps s' i l x c) : ⟨c, x.slot⟩ ∈ s'.sessions :=
  List.mem_of_getElem? h.self

/-- What the sessions have in common stays so if the one that moves keeps it. -/
theorem forall_sessions {P : Session → Prop} (h : s.Steps s' i l x c)
    (hs : ∀ y ∈ s.sessions, P y) (hself : P ⟨c, x.slot⟩) : ∀ y ∈ s'.sessions, P y := by
  intro y hy
  obtain ⟨j, hj⟩ := List.getElem?_of_mem hy
  rcases h.inv hj with ⟨-, rfl⟩ | ⟨-, hj⟩
  · exact hself
  · exact hs y (List.mem_of_getElem? hj)

theorem recorded (h : s.Steps s' i l x c) (hwf : s.Wf) (hrec : s.Recorded) : s'.Recorded := by
  have hkey : s.shared.muts <+: s'.shared.muts ∧ ∀ w ∈ c.clerk.openRecs,
      w ∈ x.conn.clerk.openRecs ∨ (w.record.key, some w.record.val) ∈ s'.shared.muts := by
    by_cases hl : l = .serve
    · subst hl
      have hinv := hwf.inv i x h.session
      exact (serve_serves hinv.phase hinv.batch h.step).1.recorded
    · obtain ⟨hopen, -, -, -, hmuts⟩ := Conn.step_books h.step hl
      rw [hopen, hmuts]
      exact ⟨List.prefix_refl _, fun w hw => .inl hw⟩
  intro y hy w hw
  obtain ⟨j, hj⟩ := List.getElem?_of_mem hy
  rcases h.inv hj with ⟨-, rfl⟩ | ⟨-, hj⟩
  · rcases hkey.2 w hw with hold | hnew
    · exact hkey.1.subset (hrec x (List.mem_of_getElem? h.session) w hold)
    · exact hnew
  · exact hkey.1.subset (hrec y (List.mem_of_getElem? hj) w hw)

/-- Entries stay valid if each is for a record of the clerk that moved, or was there
before and the clerk keeps its own. -/
theorem pointed (h : s.Steps s' i l x c) (hp : s.Pointed)
    (hidx : ∀ k e, s'.shared.index k = some e →
      c.Indexed k e ∨ (s.shared.index k = some e ∧ (x.conn.Indexed k e → c.Indexed k e))) :
    s'.Pointed := by
  intro k e he
  rcases hidx k e he with hnew | ⟨hold, hkeep⟩
  · exact ⟨_, h.mem_self, hnew⟩
  · obtain ⟨y, hy, hidx⟩ := hp k e hold
    obtain ⟨j, hj⟩ := List.getElem?_of_mem hy
    by_cases hji : j = i
    · subst hji
      rw [h.session] at hj
      cases hj
      exact ⟨_, h.mem_self, hkeep hidx⟩
    · rw [← h.other hji] at hj
      exact ⟨y, List.mem_of_getElem? hj, hidx⟩

/-- Steps other than the clerk's keep entries valid. -/
theorem pointed_of_ne (h : s.Steps s' i l x c) (hwf : s.Wf) (hp : s.Pointed) (hl : l ≠ .serve) :
    s'.Pointed := by
  obtain ⟨hopen, -, hindex, -, -⟩ := Conn.step_books h.step hl
  refine h.pointed hp fun k e he => .inr ⟨hindex ▸ he, fun hold => ?_⟩
  refine hold.of_openRecs ?_ (Conn.step_writeBuf (hwf.inv i x h.session) h.step) ?_
  · rcases Conn.step_clerk h.step hl with hpc | ⟨⟨sync, hpc⟩, -⟩
    · exact hpc
    · rw [hold.1] at hpc
      cases hpc
  · rw [hopen]
    intro w hw
    exact hw

end Steps

/-- Records in the batches of two clerks have different entries. -/
theorem Wf.entry_ne (hwf : s.Wf) {j : Nat} {y : Session} (hij : i ≠ j)
    (hx : s.sessions[i]? = some x) (hy : s.sessions[j]? = some y)
    (hrun : x.conn.clerk.pc = .running) (hrun' : y.conn.clerk.pc = .running) {w w' : Stored}
    (hw : w ∈ x.conn.clerk.openRecs) (hw' : w' ∈ y.conn.clerk.openRecs) :
    w.entry x.ring ≠ w'.entry y.ring := by
  intro heq
  have haddr : x.ring + w.pos + sizeofRequest = y.ring + w'.pos + sizeofRequest :=
    congrArg DBIndex.memaddr heq
  have hl := hwf.laid (List.mem_of_getElem? hx) hrun
  have hl' := hwf.laid (List.mem_of_getElem? hy) hrun'
  have hpos := (hl.placed.bounds w hw).2
  have hpos' := (hl'.placed.bounds w' hw').2
  have hlt := hl.head_lt
  have hlt' := hl'.head_lt
  rw [hl.len_eq] at hlt
  rw [hl'.len_eq] at hlt'
  have hap := hwf.apart i j x y hx hy hij (.of_running hrun) (.of_running hrun')
  unfold Apart at hap
  omega

/-- A turn of a clerk keeps entries valid exactly when it is not a `CLOSE` that leaves
some behind. -/
theorem Steps.pointed_iff {c : Conn} (h : s.Steps s' i .serve x c) (hwf : s.Wf) (hp : s.Pointed) :
    s'.Pointed ↔ s.ClosesUnindexed (.conn i .serve) := by
  have hinv := hwf.inv i x h.session
  obtain ⟨hsv, hrun, -⟩ := serve_serves hinv.phase hinv.batch h.step
  constructor
  · intro hp' y hy hpc w hw hidx
    rw [h.session] at hy
    cases hy
    obtain ⟨hstop, -, hindex⟩ := hsv.closes hpc
    rw [← hindex] at hidx
    obtain ⟨z, hz, hrunz, w', hw', -, hentry⟩ := hp' _ _ hidx
    obtain ⟨j, hj⟩ := List.getElem?_of_mem hz
    rcases h.inv hj with ⟨-, rfl⟩ | ⟨hji, hj⟩
    · exact hstop hrunz
    · exact hwf.entry_ne (Ne.symm hji) h.session hj hrun hrunz hw hw' hentry
  · intro hclose
    refine h.pointed hp fun k e he => ?_
    exact hsv.indexed hrun (hclose x h.session) he

/-- What holds whatever the clerks leave in the index. -/
structure Kept (s : Server) : Prop where
  wf : s.Wf
  recorded : s.Recorded

theorem init_kept (h : server.init s) : s.Kept := by
  refine ⟨init_wf h, ?_⟩
  obtain ⟨-, -, hnil⟩ := h
  intro x hx
  rw [hnil] at hx
  cases hx

theorem Kept.step {l : Move} (h : s.Kept) (hstep : server.step s l = some s') : s'.Kept := by
  refine ⟨h.wf.step hstep, ?_⟩
  cases l with
  | connect buffer flag m m' =>
    obtain ⟨x, hc⟩ := connect_step hstep
    exact hc.recorded h.recorded
  | conn i l =>
    obtain ⟨x, c, hc⟩ := conn_step hstep
    exact hc.recorded h.wf h.recorded

theorem init_pointed (h : server.init s) : s.Pointed := by
  obtain ⟨hfresh, -, -⟩ := h
  intro k e he
  rw [hfresh.index] at he
  cases he

theorem Pointed.step_iff {l : Move} (h : s.Pointed) (hwf : s.Wf)
    (hstep : server.step s l = some s') : s'.Pointed ↔ s.ClosesUnindexed l := by
  cases l with
  | connect buffer flag m m' =>
    obtain ⟨x, hc⟩ := connect_step hstep
    exact ⟨fun _ => trivial, fun _ => hc.pointed h⟩
  | conn i l =>
    obtain ⟨x, c, hc⟩ := conn_step hstep
    by_cases hl : l = .serve
    · subst hl
      exact hc.pointed_iff hwf h
    · refine ⟨fun _ => ?_, fun _ => hc.pointed_of_ne hwf h hl⟩
      cases l with
      | serve => exact absurd rfl hl
      | _ => trivial

/-! ## A ring that is used again -/

/-- A client connects, writes `r` and closes. Its slot is free again, its entry is still
there. -/
theorem entry_outlives_close (r : Record) :
    ∃ tr x sh, server.Run idle tr ⟨0, 0, [x], sh⟩ ∧
      clientCalls tr = [(0, .write r), (0, .close)] ∧ x.conn.clerk.pc = .closed ∧
      sh.index r.key = some (Stored.entry ⟨0, r, ringHeader⟩ 0) ∧
      sh.muts = [(r.key, some r.val)] := by
  have hjoin := joins (s := idle) (n := 0) (by decide) (by decide)
  obtain ⟨tr₁, c₁, m₁, sh₁, hrun₁, hcalls₁, hsh₁, hu₁, -⟩ :=
    first_write (s := idle.joined 0) (i := 0) (a := 0) rfl r
  obtain ⟨tr₂, p₂, hcb⟩ := hu₁.close
  let s₁ : Server := (idle.joined 0).put 0 (some 0) (c₁, sh₁)
  have hrun₂ := run_conn (s := s₁) (i := 0) (x := ⟨c₁, some 0⟩) rfl hcb.run hcb.before
  obtain ⟨⟨c₃, sh₃⟩, hstep⟩ := hcb.callback
  have hback := put_callback (s := s₁) (i := 0) (n := 0) Nat.zero_lt_one hstep
  have hstep : p₂.1.step p₂.2 .callback = some (c₃, sh₃) := hstep
  obtain ⟨-, -, hindex, -, hmuts⟩ := Conn.step_books hstep (by simp)
  have hclosed : c₃.clerk.pc = .closed := by
    obtain ⟨-, -, -, -, rfl⟩ := Conn.callback_step hstep
    rfl
  have hbits : s₁.bitmap - 1#64 <<< (63 - 0) = 0 := by
    show 0#64 + 1#64 <<< (63 - 0) - 1#64 <<< (63 - 0) = 0
    decide
  have hend : (s₁.put 0 (some 0) (c₃, sh₃)).released 0 = ⟨0, 0, [⟨c₃, some 0⟩], sh₃⟩ := by
    rw [← hbits]
    rfl
  have hrun := (((TSys.Run.nil.snoc hjoin).trans hrun₁).trans hrun₂).snoc hback
  rw [hend] at hrun
  refine ⟨_, _, _, hrun, ?_, hclosed, ?_, ?_⟩
  · simp only [clientCalls_append, clientCalls_conn, hcalls₁, hcb.calls]
    rfl
  · rw [hindex, hcb.index]
    show sh₁.index r.key = _
    rw [hsh₁]
    exact Shared.take_index_self _ _ ⟨0, r, ringHeader⟩
  · rw [hmuts, hcb.muts]
    show sh₁.muts = _
    rw [hsh₁]
    rfl

/-- The next client gets the same ring and writes `r'` there. A `GET` of the first key
then finds the second value. -/
theorem stale_read {r r' : Record} (hne : r'.key ≠ r.key)
    (hk : r'.key.length = r.key.length) (hv : r'.val.length = r.val.length) :
    ∃ tr s, server.Run idle tr s ∧
      clientCalls tr = [(0, .write r), (0, .close), (1, .write r')] ∧ ¬ s.IndexValid ∧
      s.shared.lookup r.key = some r'.val ∧
      s.shared.muts = [(r.key, some r.val), (r'.key, some r'.val)] := by
  obtain ⟨tr₁, x, sh₁, hrun₁, hcalls₁, hclosed, hindex₁, hmuts₁⟩ := entry_outlives_close r
  let s₁ : Server := ⟨0, 0, [x], sh₁⟩
  have hjoin := joins (s := s₁) (n := 0) (show (~~~ 0#64).clz.toNat = 0 by decide) (by decide)
  obtain ⟨tr₂, c₂, m₂, sh₂, hrun₂, hcalls₂, hsh₂, hu₂, hring₂, hbuf₂⟩ :=
    first_write (s := s₁.joined 0) (i := 1) (a := 0) rfl r'
  have hopen : c₂.clerk.openRecs = [⟨0, r', ringHeader⟩] := congrArg Ring.openRecs hring₂
  have hindex : sh₂.index r.key = some (Stored.entry ⟨0, r, ringHeader⟩ 0) := by
    rw [hsh₂]
    show Function.update sh₁.index r'.key _ r.key = _
    rw [Function.update_of_ne (Ne.symm hne)]
    exact hindex₁
  refine ⟨_, _, (hrun₁.snoc hjoin).trans hrun₂, ?_, ?_, ?_, ?_⟩
  · simp only [clientCalls_append, hcalls₁, hcalls₂]
    rfl
  · intro hvalid
    obtain ⟨y, hy, hrunning, w, hw, hkey, -⟩ := hvalid.entry r.key _ hindex
    have hy : y ∈ [x, ⟨c₂, some 0⟩] := hy
    rcases List.mem_cons.mp hy with rfl | hy
    · rw [hclosed] at hrunning
      cases hrunning
    · rw [List.mem_singleton.mp hy, hopen] at hw
      rw [List.mem_singleton.mp hw] at hkey
      exact hne hkey
  · have hrunning := (hu₂.atRest.sound.inv.phase.quiet hu₂.atRest.idle).running
    have hread := (hu₂.atRest.sound.inv.batch hrunning).laid.read_entry (w := ⟨0, r', ringHeader⟩)
      (by rw [hopen]; exact List.mem_singleton.mpr rfl)
    rw [hbuf₂] at hread
    refine (Shared.lookup_some hindex).trans ?_
    show some (sh₂.mem.read (0 + ringHeader + sizeofRequest + r.key.length) r.val.length) = _
    rw [← hk, ← hv]
    exact congrArg some hread
  · show sh₂.muts = _
    rw [hsh₂]
    show sh₁.muts ++ _ = _
    rw [hmuts₁]
    rfl

/-! ## When entries stay valid -/

/-- In a run of the server every entry of `im_index_` is valid throughout exactly when
no clerk takes `CLOSE` while an entry points into its open batch. -/
theorem index_valid_iff {s₀ : Server} (hinit : server.init s₀) (hrun : server.Run s₀ tr s) :
    Throughout IndexValid tr s ↔ Meets ClosesUnindexed tr := by
  have hkept := init_kept hinit
  refine hrun.all_iff (fun _ _ => True) hkept
    ((indexValid_iff_pointed hkept.wf hkept.recorded).mpr (init_pointed hinit)) ?_ ?_
    fun _ _ => trivial
  · intro s l s' h _ hstep
    exact h.step hstep
  · intro s l s' h hv _ hstep
    have h' := h.step hstep
    rw [indexValid_iff_pointed h.wf h.recorded] at hv
    rw [indexValid_iff_pointed h'.wf h'.recorded]
    exact hv.step_iff h.wf hstep

/-- A client closes only when its clerk's batch is empty. -/
def ClosesEmpty (s : Server) : Move → Prop
  | .conn i (.call .close) => ∀ x, s.sessions[i]? = some x → x.conn.clerk.openRecs = []
  | _ => True

/-- The clerks of the clients that close have an empty batch. -/
structure Emptied (s : Server) : Prop where
  wf : s.Wf
  empty : ∀ x ∈ s.sessions, x.conn.client.pc = .closeWait ∨ x.conn.client.pc = .closed →
    x.conn.clerk.openRecs = []

theorem init_emptied (h : server.init s) : s.Emptied := by
  refine ⟨init_wf h, fun x hx => ?_⟩
  rw [h.2.2] at hx
  cases hx

theorem Connects.emptied (h : s.Connects s' x) (hs : s.Emptied) : s'.Emptied := by
  refine ⟨h.wf hs.wf, fun y hy hpc => ?_⟩
  rcases h.mem.mp hy with hy | rfl
  · exact hs.empty y hy hpc
  · obtain ⟨flag, m, m', -, hfresh⟩ := h.fresh
    rw [hfresh]
    rfl

theorem Steps.emptied {l : Label} {c : Conn} (h : s.Steps s' i l x c) (hs : s.Emptied)
    (hl : s.ClosesEmpty (.conn i l)) : s'.Emptied := by
  have hinv := hs.wf.inv i x h.session
  have hx := List.mem_of_getElem? h.session
  refine ⟨h.wf hs.wf, h.forall_sessions hs.empty fun hpc => ?_⟩
  by_cases hserve : l = .serve
  · subst hserve
    have hsv := (serve_serves hinv.phase hinv.batch h.step).1
    have hpc : c.client.pc = .closeWait ∨ c.client.pc = .closed := hpc
    rw [hsv.frame.2.2.2.2] at hpc
    exact (hsv.closes hpc).2.1
  · show c.clerk.openRecs = []
    rw [(Conn.step_books h.step hserve).openRecs]
    by_cases hclosing : x.conn.client.pc = .closeWait ∨ x.conn.client.pc = .closed
    · exact hs.empty x hx hclosing
    · -- it has just called `SendClose`
      have hcall : l = .call .close := by
        by_contra hne
        have hstays := Conn.step_stays hinv h.step
          (fun q hq hclose => hne (by rw [hq, hclose])) (not_or.mp hclosing)
        exact absurd hpc (not_or.mpr hstays)
      subst hcall
      exact hl x h.session

/-- Clients that close with an empty batch leave no entry behind. -/
theorem closesUnindexed_of_empty {s₀ : Server} (hinit : server.init s₀) (hrun : server.Run s₀ tr s)
    (hok : Meets ClosesEmpty tr) : Meets ClosesUnindexed tr := by
  have hempty : Throughout Emptied tr s := hrun.throughout hok fun tr s hrun hok => by
    refine hrun.invariant (init_emptied hinit) (fun s l s' hs hl hstep => ?_) hok
    cases l with
    | connect buffer flag m m' =>
      obtain ⟨x, hc⟩ := connect_step hstep
      exact hc.emptied hs
    | conn i l =>
      obtain ⟨x, c, hc⟩ := conn_step hstep
      exact hc.emptied hs hl
  intro p hp
  obtain ⟨s, l⟩ := p
  cases l with
  | connect buffer flag m m' => trivial
  | conn i l =>
    cases l with
    | serve =>
      intro x hx hpc w hw
      rw [(hempty.2 _ hp).empty x (List.mem_of_getElem? hx) hpc] at hw
      cases hw
    | _ => trivial

theorem closesEmpty_of_calls (h : ∀ p ∈ clientCalls tr, p.2 ≠ .close) : Meets ClosesEmpty tr := by
  rintro ⟨s, l⟩ he
  cases l with
  | connect buffer flag m m' => trivial
  | conn i l =>
    cases l with
    | call q =>
      have hq := h (i, q) (List.mem_filterMap.mpr ⟨_, he, rfl⟩)
      cases q with
      | close => exact absurd rfl hq
      | _ => trivial
    | _ => trivial

/-- A full batch leaves the clerk with an empty one. -/
theorem full_batch_flushed (sh : Shared) (writeBuf : Nat) (m m' : Mem) {r : Record}
    (hr : r.length = 8184) :
    ∃ p, Drives (List.replicate 3 (.write r)) (.fresh writeBuf 0 m m', sh) p ∧ Untouched p ∧
      p.1.Within fun _ => False := by
  obtain ⟨p, hd, hu, hring, -⟩ :=
    (fresh_untouched sh writeBuf m m' (show 0 ≠ clientDone by decide)).writes (List.replicate 3 r)
  rw [List.map_replicate] at hd
  have hstart : (Conn.fresh writeBuf 0 m m').ring.load = (8, 0, 0) := rfl
  have hload : p.1.ring.load = (24560, 0, 1) := by
    rw [hring, Ring.load_writes, List.map_replicate, hr, hstart]
    decide
  have hopen : p.1.ring.openRecs = [] := by
    have hsize : Batch.total (records p.1.ring.openRecs) = 0 := congrArg (fun p => p.2.1) hload
    exact List.map_eq_nil_iff.mp (Batch.total_eq_zero.mp hsize)
  refine ⟨p, hd, hu, fun w hw => ?_, fun r hr => ?_⟩
  · have hw : w ∈ p.1.ring.openRecs := hw
    rw [hopen] at hw
    cases hw
  · rw [hu.atRest.idle] at hr
    cases hr

/-- Clients 0 and 1 write, client 0 closes once its full batch is flushed, and client 2 gets its
ring and writes there. -/
theorem reused_ring_index_valid :
    ∃ tr s, server.Run idle tr s ∧
      clientCalls tr = [(1, .write (sample 2 1)), (0, .write (sample 1 8175)),
        (0, .write (sample 1 8175)), (0, .write (sample 1 8175)), (0, .close),
        (2, .write (sample 3 1))] ∧
      s.sessions.map Session.slot = [some 0, some 1, some 0] ∧
      s.sessions.map (fun x => x.conn.clerk.pc) = [.closed, .running, .running] ∧
      s.shared.index [3] = some (Stored.entry ⟨0, sample 3 1, ringHeader⟩ 0) ∧
      Throughout IndexValid tr s := by
  obtain ⟨tr₀, hrun₀, hcalls₀⟩ := two_join
  let s₀ : Server := (idle.joined 0).joined 1
  obtain ⟨tr₁, c₁, m₁, sh₁, hrun₁, hcalls₁, -, hu₁, -⟩ :=
    first_write (s := s₀) (i := 1) (a := maxAsyncSize) rfl (sample 2 1)
  let s₁ : Server := s₀.put 1 (some 1) (c₁, sh₁)
  obtain ⟨p₂, hd₂, hu₂, hempty₂⟩ := full_batch_flushed sh₁ 0 (fun _ => 0) (fun _ => 0)
    (length_sample 1 8175 (by decide) (by decide))
  obtain ⟨tr₂, hrun₂, hcalls₂⟩ := drives (s := s₁) (i := 0) (x := ⟨boot.1, some 0⟩) rfl hd₂
  let s₂ : Server := s₁.put 0 (some 0) p₂
  obtain ⟨tr₃, p₃, hcb⟩ := hu₂.close
  have hrun₃ := run_conn (s := s₂) (i := 0) (x := ⟨p₂.1, some 0⟩) rfl hcb.run hcb.before
  obtain ⟨⟨c₄, sh₄⟩, hstep⟩ := hcb.callback
  have hback := put_callback (s := s₂) (i := 0) (n := 0) (Nat.succ_pos 1) hstep
  let s₄ : Server := (s₂.put 0 (some 0) (c₄, sh₄)).released 0
  have hfree : (~~~ s₄.bitmap).clz.toNat = 0 := by
    show (~~~ (0#64 + 1#64 <<< (63 - 0) + 1#64 <<< (63 - 1) - 1#64 <<< (63 - 0))).clz.toNat = 0
    decide
  have hjoin₄ := joins hfree (by decide)
  obtain ⟨tr₅, c₅, m₅, sh₅, hrun₅, hcalls₅, hsh₅, hu₅, -⟩ :=
    first_write (s := s₄.joined 0) (i := 2) (a := 0) rfl (sample 3 1)
  have hrun := (((((hrun₀.trans hrun₁).trans hrun₂).trans hrun₃).snoc hback).snoc hjoin₄).trans
    hrun₅
  refine ⟨_, _, hrun, ?_, ?_, ?_, ?_, ?_⟩
  · simp only [clientCalls_append, clientCalls_conn, hcalls₀, hcalls₁, hcalls₂, hcb.calls, hcalls₅]
    rfl
  · rfl
  · have hclosed : c₄.clerk.pc = .closed := by
      obtain ⟨-, -, -, -, rfl⟩ := Conn.callback_step hstep
      rfl
    have hrunning : ∀ {c : Conn} {sh : Shared}, Untouched (c, sh) → c.clerk.pc = .running :=
      fun hu => (hu.atRest.sound.inv.phase.quiet hu.atRest.idle).running
    show [c₄.clerk.pc, c₁.clerk.pc, c₅.clerk.pc] = _
    rw [hclosed, hrunning hu₁, hrunning hu₅]
  · show sh₅.index (sample 3 1).key = _
    rw [hsh₅]
    exact Shared.take_index_self _ _ ⟨0, sample 3 1, ringHeader⟩
  · refine (index_valid_iff idle_init hrun).mpr (closesUnindexed_of_empty idle_init hrun ?_)
    -- client 0 has nothing in its batch when it closes
    have hclose : Meets ClosesEmpty
        (tr₃.map fun e => (s₂.put 0 (some 0) e.1, .conn 0 e.2)) := by
      intro e he
      obtain ⟨⟨p, l⟩, hmem, rfl⟩ := List.mem_map.mp he
      have hwithin := run_within hu₂.atRest.sound hempty₂ hcb.run
        (by simp [hcb.calls, Hybrid.writes]) (p, l) hmem
      cases l with
      | call q =>
        cases q with
        | close =>
          intro x hx
          have hx : some (⟨p.1, some 0⟩ : Session) = some x := hx
          cases hx
          exact List.eq_nil_iff_forall_not_mem.mpr hwithin.opened
        | _ => trivial
      | _ => trivial
    rw [meets_append, meets_snoc, meets_snoc, meets_append, meets_append, meets_append]
    exact ⟨⟨⟨⟨⟨⟨closesEmpty_of_calls (by simp [hcalls₀]), closesEmpty_of_calls (by simp [hcalls₁])⟩,
      closesEmpty_of_calls (by simp [hcalls₂])⟩, hclose⟩, trivial⟩, trivial⟩,
      closesEmpty_of_calls (by simp [hcalls₅])⟩

/-- Key `[1]` is written, its client closes, and key `[2]` is written by the next client:
a `GET` of `[1]` finds `[2]`, which nobody stored there. -/
theorem closed_client_leaves_entry :
    ∃ tr s, server.Run idle tr s ∧
      clientCalls tr = [(0, .write (sample 1 1)), (0, .close), (1, .write (sample 2 1))] ∧
      s.shared.lookup [1] = some [2] ∧ ([1], some [2]) ∉ s.shared.muts ∧ ¬ s.IndexValid := by
  have hne : (sample 2 1).key ≠ (sample 1 1).key := by decide
  obtain ⟨tr, s, hrun, hcalls, hnot, hlookup, hmuts⟩ := stale_read hne rfl rfl
  refine ⟨tr, s, hrun, hcalls, hlookup, ?_, hnot⟩
  rw [hmuts]
  decide

end Server

end LogDirect.Hybrid
