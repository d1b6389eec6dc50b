import LogDirect.Group.TableFront

/-!
# The group front end on CuckooDB: an atomic map and its log

With the steps of the table, the server can be followed by a plain map whose calls are atomic
(`onTable_step`), whatever the order of the steps of clients, network, clerks and table.

The log lags behind the table by the part of a batch that `PutBatch` is at, whose writers are
still on the queue. What is in the log is in the order in which it went into the table.
-/

namespace LogDirect.Group

open Lib Lib.Atomic
open Sync (Seen clip body)
open Store (LogFileDB)

variable {ω ℓ : Type}

/-! ## Steps of the table -/

section Table

variable {O : Object ω ℓ (Cuckoo.Call Bytes Bytes) (Cuckoo.Ret Bytes)}
  {R : ω → State Nat (Cuckoo.Call Bytes Bytes) (Cuckoo.Ret Bytes) DB → Prop}
  {s s' : TableServer ω} {b b' : State Nat (Cuckoo.Call Bytes Bytes) (Cuckoo.Ret Bytes) DB}
  {a a' : State Nat Call Ret DB} {n k i : Nat} {o : ω}

/-- A clerk and the table do something, and the front end nothing. -/
theorem TableAt.inside (h : TableAt R s b a n k) {w : Work}
    {p : Phase (Cuckoo.Call Bytes Bytes) (Cuckoo.Ret Bytes)}
    (htable : R o ⟨b.obj, Function.update b.phase i p⟩)
    (hphase : ∀ j, j ≠ i → a'.phase j = a.phase j) (hobj : a'.obj = a.obj)
    (hrounds : rounds w p = rounds (s.work i) (b.phase i))
    (hwork : WorkAt (s.server.conns i) s.server.batch w p)
    (hclient : ClientAt (s.server.conns i) ((s.server.conns i).outcome p
      (decide (i ∈ s.server.writersQueue.take n))) (a'.phase i)) :
    TableAt R ⟨s.server, Function.update s.work i w, o⟩
      ⟨b.obj, Function.update b.phase i p⟩ a' n k := by
  refine h.move (i := i) ⟨fun _ _ => rfl, fun j hj => Function.update_of_ne hj ..,
    fun j hj => Function.update_of_ne hj .., hphase, rfl, rfl, ⟨[], (List.append_nil _).symm⟩,
    fun _ => rfl⟩ htable rfl hobj h.orderly h.conns (.inl ⟨rfl, ?_⟩) ?_ ?_
  · dsimp only
    rw [Function.update_self, Function.update_self]
    exact hrounds
  · dsimp only
    rw [Function.update_self, Function.update_self]
    exact hwork
  · dsimp only
    rw [Function.update_self]
    exact hclient

/-- A clerk calls the table. -/
theorem TableAt.enter (hO : O.Linear (fun _ => True) Cuckoo.Effect R) (h : TableAt R s b a n k)
    (hstep : s.step O (.enter i) = some s') : ∃ b', TableAt R s' b' a n k := by
  obtain ⟨⟨tc, w⟩, hcalling, hstep⟩ := Option.bind_eq_some_iff.mp hstep
  obtain ⟨o, ho, rfl⟩ := Option.map_eq_some_iff.mp hstep
  obtain ⟨b', hone, htable⟩ := hO.step s.table (O.invoke i tc) o b h.table (fun _ _ _ => trivial) ho
  rw [hO.invoke] at hone
  cases hone with
  | invoke _ hidle =>
    have hi := h.clients i
    have hw := h.work i
    rcases TableServer.calling_inv hcalling with ⟨hfree, hpc, hop, rfl, rfl⟩ |
      ⟨r, e, hloop, he, rfl, rfl⟩
    · refine ⟨_, h.inside htable (fun _ _ => rfl) rfl ?_ (.finding hpc hop (.inl rfl)) ?_⟩
      · rw [hfree]
        rfl
      · rw [outcome_serving hpc, hidle] at hi
        rw [outcome_serving hpc]
        exact hi
    · rw [hloop] at hw
      generalize b.phase i = p at hw
      cases hw with
      | looping hpc hle =>
        refine ⟨_, h.inside htable (fun _ _ => rfl) rfl ?_ (.inserting hpc he (.inl rfl)) ?_⟩
        · rw [hloop]
          rfl
        · rw [outcome_writing hpc] at hi ⊢
          exact hi

/-- The table looks up the key of a `GET`. -/
theorem TableAt.find (h : TableAt R s b a n k) (hpc : (s.server.conns i).clerk.pc = .serving)
    (hwork : s.work i = .finding) (hop : Request.op (s.server.conns i).request = some .get)
    (hcalled : b.phase i = .called (.find (Request.key (s.server.conns i).request)))
    (htable : R o ⟨b.obj, Function.update b.phase i
      (.answered (.found (b.obj (Request.key (s.server.conns i).request))))⟩) :
    ∃ a', Step GroupEffect a [] a' ∧ TableAt R ⟨s.server, s.work, o⟩
      ⟨b.obj, Function.update b.phase i
        (.answered (.found (b.obj (Request.key (s.server.conns i).request))))⟩ a' n k := by
  have hi := h.clients i
  rw [outcome_serving hpc, hcalled] at hi
  obtain ⟨es, r, hr, -⟩ := h.conns i
  obtain ⟨q, -, hcalls, -, hholds⟩ := hr.serving hpc
  obtain ⟨key, rfl⟩ := Conn.get_of_op (hholds.op.symm.trans hop)
  have hkey : Request.key (s.server.conns i).request = key.bytes := congrArg Seen.key hholds.seen
  have hwait : (s.server.conns i).client.pc = .waiting (.get key) :=
    hcalls.resolve_right (by simp)
  obtain ⟨hok, hval⟩ := Sync.ret_reply (s.server.conns i).request .ok ((b.obj key.bytes).getD [])
  have heff : GroupEffect (.get key) a.obj ((Call.get key).ret (Sync.reply
      (s.server.conns i).request .ok ((b.obj key.bytes).getD []).length
      (clip ((b.obj key.bytes).getD [])))) a.obj := by
    have hget := GroupEffect.get key a.obj
    rw [h.obj] at hget ⊢
    rw [Call.ret, hok, hval]
    exact hget
  have hself : Function.update s.work i .finding = s.work := by
    rw [← hwork, Function.update_eq_self]
  refine ⟨_, .effect (hi.waiting hwait) heff, ?_⟩
  rw [← hself, hkey]
  rw [hkey] at htable
  refine h.inside htable (fun j hj => Function.update_of_ne hj ..) rfl ?_
    (.finding hpc hop (.inr ⟨_, rfl⟩)) ?_
  · rw [hwork]
    rfl
  · rw [outcome_serving hpc]
    dsimp only
    rw [Function.update_self]
    exact .effect hwait (by rw [hpc]; simp) _

/-- The request of a call as it is appended to the log. -/
theorem Conn.Holds.requestBytes {c : Conn Nat} {q : Call} (h : c.Holds q) :
    Group.requestBytes c.request = body q := by
  have hkey : Request.keySize c.request = (Seen.ofCall q).key.length :=
    (Mem.length_read ..).symm.trans (congrArg (fun x => x.key.length) h.seen)
  have hval : Request.valSize c.request = (Seen.ofCall q).val.length :=
    (Mem.length_read ..).symm.trans (congrArg (fun x => x.val.length) h.seen)
  have hlen : sizeofRequest + (Seen.ofCall q).key.length + (Seen.ofCall q).val.length =
      (body q).length := by
    cases q <;> simp [Seen.ofCall, body, Record.length]
  rw [Group.requestBytes, hkey, hval, hlen]
  exact h

/-- The writer of a round of the loop. -/
theorem TableAt.writer (h : TableAt R s b a n k) {w r : Nat} {e : Bytes × Bytes}
    (hpc : (s.server.conns i).clerk.pc = .writing w) (he : s.server.batch.entries[r]? = some e) :
    ∃ j q, s.server.writersQueue.take (r + 1) = s.server.writersQueue.take r ++ [j] ∧
      j ∉ s.server.writersQueue.take r ∧ (s.server.conns j).client.pc = .waiting q ∧
      LoggedCall q ∧ (s.server.conns j).Holds q ∧
      e = ((Seen.ofCall q).key, (Seen.ofCall q).val) ∧
      (j ≠ i → (s.server.conns j).clerk.pc = .waiting ∧ (s.server.conns j).clerk.done = false) := by
  have hgroup := h.orderly.group i w (.inl hpc)
  rw [hgroup.entries, List.getElem?_map] at he
  obtain ⟨j, hj, rfl⟩ := Option.map_eq_some_iff.mp he
  have hj : s.server.writersQueue[r]? = some j := by
    rw [List.getElem?_take] at hj
    split at hj
    · exact hj
    · cases hj
  have htake : s.server.writersQueue.take (r + 1) = s.server.writersQueue.take r ++ [j] := by
    rw [List.take_add_one, hj]
    rfl
  have hmem : j ∈ s.server.writersQueue := List.mem_of_getElem? hj
  have hpending := (h.orderly.mem j).mp hmem
  obtain ⟨es, hes⟩ := h.conns j
  obtain ⟨q, hwait, hlogged, hholds, -⟩ := Server.pending_call hes hpending
  refine ⟨j, q, htake, ?_, hwait, hlogged, hholds, ?_, ?_⟩
  · have hnodup := h.orderly.nodup.sublist (List.take_sublist (r + 1) s.server.writersQueue)
    rw [htake, List.nodup_append] at hnodup
    intro hin
    exact hnodup.2.2 j hin j (List.mem_singleton_self j) rfl
  · rw [← hholds.seen]
    rfl
  · intro hji
    rcases hpending with hlead | hwaiting
    · exact absurd hlead (h.others (by rw [hpc]; trivial) hji)
    · exact hwaiting

/-- The table stores the pair of a writer, whose call takes effect. -/
theorem TableAt.insert (h : TableAt R s b a n k) {w r : Nat} {e : Bytes × Bytes} {new : Bool}
    (hpc : (s.server.conns i).clerk.pc = .writing w) (hwork : s.work i = .inserting r)
    (he : s.server.batch.entries[r]? = some e)
    (hcalled : b.phase i = .called (.insertOrAssign e.1 e.2))
    (htable : R o ⟨Function.update b.obj e.1 (some e.2),
      Function.update b.phase i (.answered (.inserted new))⟩) :
    ∃ a', Step GroupEffect a [] a' ∧ TableAt R ⟨s.server, s.work, o⟩
      ⟨Function.update b.obj e.1 (some e.2),
        Function.update b.phase i (.answered (.inserted new))⟩ a' (r + 1) (r + 1) := by
  obtain ⟨hn, rfl⟩ := h.reached.eq_writing h.orderly hpc
  rw [hwork, hcalled] at hn
  have hn : k = r := hn
  subst hn
  obtain ⟨j, q, htake, hnot, hwait, hlogged, hholds, rfl, hfollower⟩ := h.writer hpc he
  -- what the client will read: the reply of a follower, or the leader's own request
  obtain ⟨m, hbefore, hafter⟩ : ∃ m,
      (s.server.conns j).outcome (b.phase j) (decide (j ∈ s.server.writersQueue.take k)) = none ∧
      ∀ p, (s.server.conns j).outcome p true = some m := by
    rw [decide_eq_false hnot]
    by_cases hji : j = i
    · subst hji
      exact ⟨_, outcome_writing hpc, fun _ => outcome_writing hpc⟩
    · obtain ⟨hwaiting, hdone⟩ := hfollower hji
      refine ⟨Sync.reply (s.server.conns j).request .ok 0 [], ?_, fun p => ?_⟩
      · rw [outcome_waiting hwaiting, hdone]
        rfl
      · rw [outcome_waiting hwaiting, Bool.or_true]
        rfl
  have hrun : (s.server.conns j).clerk.pc ≠ .running := by
    by_cases hji : j = i
    · rw [hji, hpc]
      simp
    · rw [(hfollower hji).1]
      simp
  have hj := h.clients j
  rw [hbefore] at hj
  refine ⟨⟨Function.update a.obj (Seen.ofCall q).key (some (Seen.ofCall q).val),
    Function.update a.phase j (.answered (q.ret m))⟩,
    .effect (hj.waiting hwait) (logged_effect hlogged a.obj m), htable, ?_, h.orderly, h.conns,
    fun t => ?_, ?_, fun t => ?_, h.logs.bytes, ?_⟩
  · rw [h.obj]
  · dsimp only
    by_cases ht : t = i
    · subst ht
      rw [Function.update_self, hwork]
      exact .inserting hpc he (.inr ⟨_, rfl⟩)
    · rw [Function.update_of_ne ht]
      exact h.work t
  · have hreached := TableServer.Reached.writing (s := ⟨s.server, s.work, o⟩)
      (b := ⟨Function.update b.obj (Seen.ofCall q).key (some (Seen.ofCall q).val),
        Function.update b.phase i (.answered (.inserted new))⟩) hpc
    dsimp only at hreached
    rw [Function.update_self, hwork] at hreached
    exact hreached
  · dsimp only
    by_cases htj : t = j
    · subst htj
      rw [Function.update_self, htake, decide_eq_true (by simp), hafter]
      exact .effect hwait hrun m
    · have hsame : decide (t ∈ s.server.writersQueue.take (k + 1)) =
          decide (t ∈ s.server.writersQueue.take k) := by
        rw [htake, decide_eq_decide, List.mem_append, List.mem_singleton]
        exact or_iff_left htj
      rw [Function.update_of_ne htj, hsame]
      have ht := h.clients t
      by_cases hti : t = i
      · subst hti
        rw [outcome_writing hpc] at ht ⊢
        exact ht
      · rw [Function.update_of_ne hti]
        exact ht
  · obtain ⟨qs, hall, hobj, hlog⟩ := h.logs.log
    refine ⟨qs ++ [q], ?_, ?_, ?_⟩
    · intro q' hq'
      rcases List.mem_append.mp hq' with hq' | hq'
      · exact hall q' hq'
      · rw [List.mem_singleton.mp hq']
        exact hlogged
    · rw [stored_snoc, ← hobj]
    · rw [List.flatMap_append, ← hlog, List.append_assoc]
      refine congrArg _ ?_
      rw [Server.requests, htake, List.flatMap_append, List.flatMap_singleton,
        List.flatMap_singleton, hholds.requestBytes]
      rfl

/-- A call of the table takes effect. -/
theorem TableAt.effect (h : TableAt R s b a n k) {tc : Cuckoo.Call Bytes Bytes}
    {r : Cuckoo.Ret Bytes} {m' : DB} (hcalled : b.phase i = .called tc)
    (heff : Cuckoo.Effect tc b.obj r m')
    (htable : R o ⟨m', Function.update b.phase i (.answered r)⟩) :
    ∃ a' n' k', Step GroupEffect a [] a' ∧
      TableAt R ⟨s.server, s.work, o⟩ ⟨m', Function.update b.phase i (.answered r)⟩ a' n' k' := by
  have hw := h.work i
  rw [hcalled] at hw
  generalize hwork : s.work i = w at hw
  cases hw with
  | finding hpc hop hcall =>
    rcases hcall with hcall | ⟨r', hcall⟩
    · cases hcall
      rcases heff with hexec | ⟨-, -, u, hu⟩
      · cases hexec
        obtain ⟨a', hone, h'⟩ := h.find hpc hwork hop hcalled htable
        exact ⟨a', n, k, hone, h'⟩
      · cases hu
    · cases hcall
  | @inserting w k' e p hpc he hcall =>
    rcases hcall with hcall | ⟨r', hcall⟩
    · cases hcall
      rcases heff with hexec | ⟨rfl, rfl, -⟩
      · rw [Cuckoo.Call.exec_insertOrAssign] at hexec
        cases hexec
        obtain ⟨a', hone, h'⟩ := h.insert hpc hwork he hcalled htable
        exact ⟨a', _, _, hone, h'⟩
      · -- the table may not grow, and the clerk does not go on
        have hself : Function.update s.work i (.inserting k') = s.work := by
          rw [← hwork, Function.update_eq_self]
        have hi := h.clients i
        refine ⟨a, n, k, .stay a, ?_⟩
        rw [← hself]
        refine h.inside htable (fun _ _ => rfl) rfl ?_ (.inserting hpc he (.inr ⟨_, rfl⟩)) ?_
        · rw [hwork, hcalled]
          rfl
        · rw [outcome_writing hpc] at hi ⊢
          exact hi
    · cases hcall

/-- `find` has returned, and the clerk writes the reply. -/
theorem TableAt.got (h : TableAt R s b a n k) {v : Option Bytes} {x : Server Nat LogFileDB}
    (hpc : (s.server.conns i).clerk.pc = .serving)
    (hop : Request.op (s.server.conns i).request = some .get)
    (hphase : b.phase i = .answered (.found v))
    (hserve : s.server.step (besides v) (.serve i) = some x)
    (htable : R o ⟨b.obj, Function.update b.phase i .idle⟩) :
    TableAt R ⟨x, Function.update s.work i .free, o⟩ ⟨b.obj, Function.update b.phase i .idle⟩
      a n k := by
  have hx : x = s.server.set i ((s.server.conns i).replies
      (Sync.reply (s.server.conns i).request .ok (v.getD []).length (clip (v.getD [])))) := by
    rw [Server.step, hpc] at hserve
    cases hserve
    rw [Server.serve, hop]
    rfl
  have hi := h.clients i
  rw [hphase, outcome_serving hpc] at hi
  have hout : i ∉ s.server.writersQueue := h.orderly.not_mem (by rw [hpc]; exact id)
  obtain ⟨horderly, hconns⟩ := h.moves (Server.step_moves hserve)
  subst hx
  have hself := Server.set_self s.server i ((s.server.conns i).replies (Sync.reply
    (s.server.conns i).request .ok (v.getD []).length (clip (v.getD []))))
  refine h.move (i := i) ⟨fun j hj => Server.set_other s.server _ hj,
    fun j hj => Function.update_of_ne hj .., fun j hj => Function.update_of_ne hj ..,
    fun _ _ => rfl, rfl, rfl, ⟨[], (List.append_nil _).symm⟩, fun hmem => absurd hmem hout⟩
    htable rfl rfl horderly hconns (.inr ⟨?_, by rw [hpc]; exact id⟩) ?_ ?_
  · dsimp only
    rw [hself]
    exact id
  · dsimp only
    rw [hself, Function.update_self, Function.update_self]
    exact .free (by simp [Conn.replies])
  · dsimp only
    rw [hself, outcome_behind (.inr rfl)]
    exact hi.after rfl fun hrun => absurd hrun (by simp [Conn.replies])

/-- The table returns to a clerk. -/
theorem TableAt.respond (h : TableAt R s b a n k) {r : Cuckoo.Ret Bytes} {x : Server Nat LogFileDB}
    {w : Work} (hphase : b.phase i = .answered r) (hanswer : s.answered i r = some (x, w))
    (htable : R o ⟨b.obj, Function.update b.phase i .idle⟩) :
    TableAt R ⟨x, Function.update s.work i w, o⟩ ⟨b.obj, Function.update b.phase i .idle⟩ a n
      k := by
  have hw := h.work i
  rcases TableServer.answered_inv hanswer with ⟨v, hwork, rfl, hserve, rfl⟩ |
    ⟨r', new, hwork, rfl, rfl, rfl⟩
  · rw [hwork] at hw
    cases hw with
    | finding hpc hop _ => exact h.got hpc hop hphase hserve htable
  · rw [hwork] at hw
    have hrounds := hw.rounds_le
    rw [hphase] at hrounds
    cases hw with
    | inserting hpc _ _ =>
      have hi := h.clients i
      refine h.inside htable (fun _ _ => rfl) rfl ?_ (.looping hpc hrounds) ?_
      · rw [hwork, hphase]
        rfl
      · rw [outcome_writing hpc] at hi ⊢
        exact hi

/-- A step of the table. -/
theorem TableAt.table_step (hO : O.Linear (fun _ => True) Cuckoo.Effect R) {l : ℓ}
    (h : TableAt R s b a n k) (hstep : s.step O (.table l) = some s') :
    ∃ b' a' n' k', Step GroupEffect a [] a' ∧ TableAt R s' b' a' n' k' := by
  unfold TableServer.step at hstep
  dsimp only at hstep
  split at hstep
  · rename_i hseen
    obtain ⟨o, ho, rfl⟩ := Option.map_eq_some_iff.mp hstep
    obtain ⟨b', hone, htable⟩ := hO.step s.table l o b h.table (fun _ _ _ => trivial) ho
    rw [hseen] at hone
    cases hone with
    | stay =>
      exact ⟨b, a, n, k, .stay a, htable, h.obj, h.orderly, h.conns, h.work,
        h.reached.congr rfl fun _ => .inl ⟨rfl, rfl⟩, h.clients, h.logs⟩
    | effect hcalled heff =>
      obtain ⟨a', n', k', hone, h'⟩ := h.effect hcalled heff htable
      exact ⟨_, a', n', k', hone, h'⟩
  · rename_i i r hseen
    obtain ⟨⟨x, w⟩, hanswer, hstep⟩ := Option.bind_eq_some_iff.mp hstep
    obtain ⟨o, ho, rfl⟩ := Option.map_eq_some_iff.mp hstep
    obtain ⟨b', hone, htable⟩ := hO.step s.table l o b h.table (fun _ _ _ => trivial) ho
    rw [hseen] at hone
    cases hone with
    | respond hanswered => exact ⟨_, a, n, k, .stay a, h.respond hanswered hanswer htable⟩
  · cases hstep

/-- The server on a table that is as good as a plain map. -/
def TableFollows (R : ω → State Nat (Cuckoo.Call Bytes Bytes) (Cuckoo.Ret Bytes) DB → Prop)
    (s : TableServer ω) (a : State Nat Call Ret DB) : Prop :=
  ∃ b n k, TableAt R s b a n k

/-- One step. -/
theorem onTable_step (hO : O.Linear (fun _ => True) Cuckoo.Effect R) {l : TableLabel ℓ}
    (h : TableFollows R s a) (hstep : s.step O l = some s') :
    ∃ a', Step GroupEffect a (s.seen l) a' ∧ TableFollows R s' a' := by
  obtain ⟨b, n, k, h⟩ := h
  cases l with
  | front l =>
    obtain ⟨a', n', k', hone, h'⟩ := h.front hstep
    exact ⟨a', hone, b, n', k', h'⟩
  | enter i =>
    obtain ⟨b', h'⟩ := h.enter hO hstep
    exact ⟨a, .stay a, b', n, k, h'⟩
  | table l =>
    obtain ⟨b', a', n', k', hone, h'⟩ := h.table_step hO hstep
    exact ⟨a', hone, b', n', k', h'⟩

theorem onTable_init {s : TableServer ω} (hinit : (onTable O o).init s)
    (hR : R o (.start fun _ => none)) : TableFollows R s (.start fun _ => none) := by
  obtain ⟨hserver, hdb, hwork, rfl⟩ := hinit
  have hfresh : ∀ i, (s.server.conns i).clerk.pc = .running ∧
      (s.server.conns i).client.pc = .idle := by
    intro i
    obtain ⟨flag, m, m', ring, -, hs⟩ := hserver.2 i
    rw [hs]
    exact ⟨rfl, rfl⟩
  have hno : ∀ i, ¬ (s.server.conns i).clerk.pc.Writes := by
    intro i hi
    rw [(hfresh i).1] at hi
    exact hi
  refine ⟨.start fun _ => none, 0, 0, hR, rfl, Server.init_orderly hserver,
    fun j => ⟨[], Server.init_follows hserver j⟩, fun j => ?_, .idle hno,
    fun j => .idle (hfresh j).2, fun j hj => absurd hj (hno j), [], by simp, rfl, ?_⟩
  · rw [hwork j]
    exact .free (by rw [(hfresh j).1]; simp)
  · rw [hdb]
    rfl

/-- A run. -/
theorem onTable_run (hO : O.Linear (fun _ => True) Cuckoo.Effect R)
    (hR : R o (.start fun _ => none)) {s₀ : TableServer ω}
    {tr : List (TableServer ω × TableLabel ℓ)} (hinit : (onTable O o).init s₀)
    (hrun : (onTable O o).Run s₀ tr s) :
    ∃ a, Steps GroupEffect (.start fun _ => none) (seenOf TableServer.seen tr) a ∧
      TableFollows R s a :=
  follows (fun _ _ => True) (fun _ _ _ _ h _ hstep => onTable_step hO h hstep) hrun
    (fun _ _ => trivial) (onTable_init hinit hR)

end Table

/-! ## The results -/

/-- The group server with a `CuckooDB` on libcuckoo, lock by lock. -/
def groupServer (cfg : Cuckoo.Config Bytes) :
    TSys (TableServer (Cuckoo.LockWorld Bytes Bytes)) (TableLabel (Cuckoo.Act Bytes Bytes)) :=
  onTable (Cuckoo.object cfg) (.create Cuckoo.defaultSize)

variable {cfg : Cuckoo.Config Bytes} {s₀ s : TableServer (Cuckoo.LockWorld Bytes Bytes)}
  {tr : List (TableServer (Cuckoo.LockWorld Bytes Bytes) × TableLabel (Cuckoo.Act Bytes Bytes))}

theorem groupServer_run (hinit : (groupServer cfg).init s₀) (hrun : (groupServer cfg).Run s₀ tr s) :
    ∃ a b n k, Steps GroupEffect (.start fun _ => none) (seenOf TableServer.seen tr) a ∧
      TableAt (Cuckoo.LocksFollow cfg) s b a n k ∧ s.table.table.Inv cfg a.obj := by
  obtain ⟨a, hsteps, b, n, k, h⟩ := onTable_run (Cuckoo.object_linear cfg)
    (Cuckoo.locksFollow_start Cuckoo.defaultSize_lt) hinit hrun
  refine ⟨a, b, n, k, hsteps, h, ?_⟩
  rw [h.obj]
  exact h.table.follows.table

/-- **The group server is an atomic map.** For any number of clients, in every order of the
steps of clients, network, clerks and table, also while a leader is in the middle of its
batch, each call takes effect on one plain map at one moment between its start and its
return. -/
theorem group_linearizable (hinit : (groupServer cfg).init s₀)
    (hrun : (groupServer cfg).Run s₀ tr s) :
    ∃ a, Steps GroupEffect (.start fun _ => none) (seenOf TableServer.seen tr) a ∧
      s.table.table.Inv cfg a.obj := by
  obtain ⟨a, b, n, k, hsteps, -, hinv⟩ := groupServer_run hinit hrun
  exact ⟨a, hsteps, hinv⟩

/-- A server nobody has called yet. -/
def untouched : TableServer (Cuckoo.LockWorld Bytes Bytes) where
  server :=
    { conns := fun _ => .fresh 0 (fun _ => 0) (fun _ => 0) fun _ => 0
      writersQueue := []
      batch := ⟨0, [], [], fun _ => 0⟩
      db := ⟨[]⟩ }
  work _ := .free
  table := .create Cuckoo.defaultSize

theorem untouched_init (cfg : Cuckoo.Config Bytes) : (groupServer cfg).init untouched :=
  ⟨⟨rfl, fun _ => ⟨0, _, _, _, by decide, rfl⟩⟩, rfl, fun _ => rfl, rfl⟩

section Rounds

variable {O : Object ω ℓ (Cuckoo.Call Bytes Bytes) (Cuckoo.Ret Bytes)} {o w w' : ω} {i : Nat}

/-- The table goes on by itself. -/
theorem table_goes_on (x : Server Nat LogFileDB) (work : Nat → Work) {ls : List ℓ}
    (hseen : ∀ l ∈ ls, ∀ w, O.seen w l = []) (h : ls.foldlM O.step w = some w') :
    ∃ tr, (onTable O o).Run ⟨x, work, w⟩ tr ⟨x, work, w'⟩ ∧ seenOf TableServer.seen tr = [] := by
  induction ls generalizing w with
  | nil =>
    obtain rfl : w = w' := Option.some.inj h
    exact ⟨[], .nil, rfl⟩
  | cons l ls ih =>
    rw [List.foldlM_cons] at h
    obtain ⟨w₁, hstep, hrest⟩ := Option.bind_eq_some_iff.mp h
    obtain ⟨tr, hrun, htr⟩ := ih (fun l hl => hseen l (List.mem_cons_of_mem _ hl)) hrest
    have hfirst : (onTable O o).step ⟨x, work, w⟩ (.table l) = some ⟨x, work, w₁⟩ := by
      simp only [onTable, TableServer.step, hseen l List.mem_cons_self, hstep, Option.map_some]
    exact ⟨_, (TSys.Run.nil.snoc hfirst).trans hrun, htr⟩

/-- Called by `i` and left alone, the object returns `r`. -/
def Returns (O : Object ω ℓ (Cuckoo.Call Bytes Bytes) (Cuckoo.Ret Bytes)) (w : ω) (i : Nat)
    (tc : Cuckoo.Call Bytes Bytes) (r : Cuckoo.Ret Bytes) (w' : ω) : Prop :=
  ∃ (w₁ w₂ : ω) (ls : List ℓ) (l : ℓ), O.step w (O.invoke i tc) = some w₁ ∧
    (∀ l ∈ ls, ∀ w, O.seen w l = []) ∧ ls.foldlM O.step w₁ = some w₂ ∧
    O.seen w₂ l = [.respond i r] ∧ O.step w₂ l = some w'

/-- A clerk calls the table and goes on with what it returns. -/
theorem clerk_asks {s : TableServer ω} {tc : Cuckoo.Call Bytes Bytes} {r : Cuckoo.Ret Bytes}
    {work work' : Work} {x : Server Nat LogFileDB} (hcalling : s.calling i = some (tc, work))
    (hreturns : Returns O s.table i tc r w')
    (hanswered : TableServer.answered ⟨s.server, Function.update s.work i work, w'⟩ i r =
      some (x, work')) :
    ∃ tr, (onTable O o).Run s tr ⟨x, Function.update s.work i work', w'⟩ ∧
      seenOf TableServer.seen tr = [] := by
  obtain ⟨w₁, w₂, ls, l, hinvoke, hseen, hruns, hresponds, hrespond⟩ := hreturns
  have henter : (onTable O o).step s (.enter i) =
      some ⟨s.server, Function.update s.work i work, w₁⟩ := by
    simp only [onTable, TableServer.step, hcalling, hinvoke, Option.bind_some, Option.map_some]
  obtain ⟨tr, hrun, htr⟩ :=
    table_goes_on (o := o) s.server (Function.update s.work i work) hseen hruns
  have hanswered' : TableServer.answered ⟨s.server, Function.update s.work i work, w₂⟩ i r =
      some (x, work') := hanswered
  have hlast : (onTable O o).step ⟨s.server, Function.update s.work i work, w₂⟩ (.table l) =
      some ⟨x, Function.update s.work i work', w'⟩ := by
    simp only [onTable, TableServer.step, hresponds, hanswered', hrespond, Option.bind_some,
      Option.map_some, Function.update_idem]
  refine ⟨_, ((TSys.Run.nil.snoc henter).trans hrun).snoc hlast, ?_⟩
  rw [seenOf_append, seenOf_append, htr]
  rfl

end Rounds

theorem zero_notMem_two : (0 : UInt8) ∉ [(2 : UInt8)] := by decide

/-- A `PUT` under another key than that of `letter`. -/
def otherLetter : Record :=
  ⟨.put, [2], [2], letter_isWrite, zero_notMem_two, zero_notMem_two, letter_fits⟩

theorem otherKey_fits : sizeofRequest + [(2 : UInt8)].length ≤ maxRequest := by decide

/-- Its key. -/
def otherKey : Key := ⟨[2], zero_notMem_two, otherKey_fits⟩

theorem runs_hidden (cfg : Cuckoo.Config Bytes) (i : Nat) :
    ∀ l ∈ List.replicate 10 (Cuckoo.Act.run i), ∀ w,
      (Cuckoo.object (V := Bytes) cfg).seen w l = [] := by
  intro l hl w
  rw [List.eq_of_mem_replicate hl]
  rfl

/-- Client 1 is behind client 0 on the queue, and client 0 has built the batch. -/
def queueSchedule : List (TableLabel (Cuckoo.Act Bytes Bytes)) :=
  [.front (.call 0 (.write letter)), .front (.call 1 (.write otherLetter)), .front (.toClerk 0),
    .front (.toClerk 0), .front (.toClerk 1), .front (.toClerk 1), .front (.take 0),
    .front (.serve 0), .front (.take 1), .front (.serve 1), .front (.build 0)]

/-- The third client is answered, and then both writers. -/
def answerSchedule : List (TableLabel (Cuckoo.Act Bytes Bytes)) :=
  [.front (.reply 2), .front (.toClient 2), .front (.toClient 2), .front (.client 2),
    .front (.putBatch 0), .front (.complete 0), .front (.wake 1), .front (.reply 1),
    .front (.toClient 1), .front (.toClient 1), .front (.client 1), .front (.reply 0),
    .front (.toClient 0), .front (.toClient 0), .front (.client 0)]

/-- A client gets the pair of the follower while the leader is in `PutBatch`. Then the follower
returns, and the leader. -/
theorem group_linearizable_batch :
    ∃ tr s, (groupServer (Cuckoo.lengthConfig UInt8)).init untouched ∧
      (groupServer (Cuckoo.lengthConfig UInt8)).Run untouched tr s ∧
      seenOf TableServer.seen tr = [.invoke 0 (.write letter), .invoke 1 (.write otherLetter),
        .invoke 2 (.get otherKey), .respond 2 (.value (some [2])), .respond 1 .done,
        .respond 0 .done] ∧
      ∃ a, Steps GroupEffect (.start fun _ => none) (seenOf TableServer.seen tr) a ∧
        s.table.table.Inv (Cuckoo.lengthConfig UInt8) a.obj := by
  have hinit := untouched_init (Cuckoo.lengthConfig UInt8)
  obtain ⟨w₁, w₂, w₃, tr₁, s₁, tr₂, s₂, x, tr₃, s₃, hfirst, hsecond, hget, htr₁, hcall₁, hcall₂,
      htr₂, hcall₃, hanswered, htr₃, htable₁, htable₂, hseen₁, hseen₂, hseen₃⟩ :
      ∃ w₁ w₂ w₃ tr₁ s₁ tr₂ s₂ x tr₃ s₃,
      Returns (Cuckoo.object (Cuckoo.lengthConfig UInt8)) (.create Cuckoo.defaultSize) 0
        (.insertOrAssign [1] [1]) (.inserted true) w₁ ∧
      Returns (Cuckoo.object (Cuckoo.lengthConfig UInt8)) w₁ 0 (.insertOrAssign [2] [2])
        (.inserted true) w₂ ∧
      Returns (Cuckoo.object (Cuckoo.lengthConfig UInt8)) w₂ 2 (.find [2]) (.found (some [2])) w₃ ∧
      (groupServer (Cuckoo.lengthConfig UInt8)).trace untouched queueSchedule = some (tr₁, s₁) ∧
      s₁.calling 0 = some (.insertOrAssign [1] [1], .inserting 0) ∧
      TableServer.calling ⟨s₁.server, Function.update s₁.work 0 (.looping 1), w₁⟩ 0 =
        some (.insertOrAssign [2] [2], .inserting 1) ∧
      (groupServer (Cuckoo.lengthConfig UInt8)).trace
        ⟨s₁.server, Function.update (Function.update s₁.work 0 (.looping 1)) 0 (.looping 2), w₂⟩
        [.front (.call 2 (.get otherKey)), .front (.toClerk 2), .front (.toClerk 2),
          .front (.take 2)] = some (tr₂, s₂) ∧
      s₂.calling 2 = some (.find [2], .finding) ∧
      TableServer.answered ⟨s₂.server, Function.update s₂.work 2 .finding, w₃⟩ 2
        (.found (some [2])) = some (x, .free) ∧
      (groupServer (Cuckoo.lengthConfig UInt8)).trace
        ⟨x, Function.update s₂.work 2 .free, w₃⟩ answerSchedule = some (tr₃, s₃) ∧
      s₁.table = .create Cuckoo.defaultSize ∧ s₂.table = w₂ ∧
      seenOf TableServer.seen tr₁ = [.invoke 0 (.write letter), .invoke 1 (.write otherLetter)] ∧
      seenOf TableServer.seen tr₂ = [.invoke 2 (.get otherKey)] ∧
      seenOf TableServer.seen tr₃ =
        [.respond 2 (.value (some [2])), .respond 1 .done, .respond 0 .done] :=
    ⟨_, _, _, _, _, _, _, _, _, _, ⟨_, _, _, .respond 0, rfl, runs_hidden _ 0, rfl, rfl, rfl⟩,
      ⟨_, _, _, .respond 0, rfl, runs_hidden _ 0, rfl, rfl, rfl⟩,
      ⟨_, _, _, .respond 2, rfl, runs_hidden _ 2, rfl, rfl, rfl⟩,
      rfl, rfl, rfl, rfl, rfl, rfl, rfl, rfl, rfl, rfl, rfl, rfl⟩
  rw [← htable₁] at hfirst
  rw [← htable₂] at hget
  obtain ⟨tr₄, hrun₄, hseen₄⟩ := clerk_asks (o := .create Cuckoo.defaultSize) hcall₁ hfirst rfl
  obtain ⟨tr₅, hrun₅, hseen₅⟩ := clerk_asks (o := .create Cuckoo.defaultSize) hcall₂ hsecond rfl
  obtain ⟨tr₆, hrun₆, hseen₆⟩ := clerk_asks (o := .create Cuckoo.defaultSize) hcall₃ hget hanswered
  have hrun := (((((TSys.run_of_trace htr₁).trans hrun₄).trans hrun₅).trans
    (TSys.run_of_trace htr₂)).trans hrun₆).trans (TSys.run_of_trace htr₃)
  refine ⟨_, s₃, hinit, hrun, ?_, group_linearizable hinit hrun⟩
  simp only [seenOf_append, hseen₁, hseen₂, hseen₃, hseen₄, hseen₅, hseen₆, List.append_nil,
    List.cons_append, List.nil_append]

/-- **The log explains the map.** The map that the clients see is what a list of calls stores,
and the log holds the requests of these calls, in this order, but for the last of them
while a leader is in `PutBatch`: those are the first ones on the queue, and their clients
have not been answered. -/
theorem log_explains (hinit : (groupServer cfg).init s₀) (hrun : (groupServer cfg).Run s₀ tr s) :
    ∃ a qs ws, Steps GroupEffect (.start fun _ => none) (seenOf TableServer.seen tr) a ∧
      s.table.table.Inv cfg a.obj ∧ a.obj = stored qs ∧ (∀ q ∈ qs, LoggedCall q) ∧
      s.server.db.file ++ (ws.flatMap fun j => requestBytes (s.server.conns j).request) =
        qs.flatMap body ∧
      ws <+: s.server.writersQueue ∧
      (∀ j ∈ ws, ∃ q, (s.server.conns j).client.pc = .waiting q) ∧
      ((∀ i w, (s.server.conns i).clerk.pc ≠ .writing w) → ws = []) := by
  obtain ⟨a, b, n, k, hsteps, h, hinv⟩ := groupServer_run hinit hrun
  obtain ⟨qs, hlogged, hobj, hlog⟩ := h.logs.log
  refine ⟨a, qs, s.server.writersQueue.take k, hsteps, hinv, hobj, hlogged, hlog,
    List.take_prefix .., fun j hj => ?_, fun hno => ?_⟩
  · obtain ⟨es, hes⟩ := h.conns j
    obtain ⟨q, hwait, -⟩ :=
      Server.pending_call hes ((h.orderly.mem j).mp (List.mem_of_mem_take hj))
    exact ⟨q, hwait⟩
  · cases h.reached with
    | idle => rfl
    | @writing i w hpc => exact absurd hpc (hno i w)
    | written => rfl

/-- A client writes, and the table has its pair. -/
def writeSchedule : List (TableLabel (Cuckoo.Act Bytes Bytes)) :=
  ([.call 0 (.write letter), .toClerk 0, .toClerk 0, .take 0, .serve 0, .build 0].map .front) ++
    [.enter 0] ++ List.replicate 10 (.table (.run 0)) ++ [.table (.respond 0)]

/-- A pair is in the table, and nothing in the log. -/
theorem log_explains_write :
    ∃ tr s, (groupServer (Cuckoo.lengthConfig UInt8)).init untouched ∧
      (groupServer (Cuckoo.lengthConfig UInt8)).Run untouched tr s ∧
      s.work 0 = .looping 1 ∧ s.server.db.file = [] ∧
      ∃ a qs ws, Steps GroupEffect (.start fun _ => none) (seenOf TableServer.seen tr) a ∧
        s.table.table.Inv (Cuckoo.lengthConfig UInt8) a.obj ∧ a.obj = stored qs ∧
        (∀ q ∈ qs, LoggedCall q) ∧
        s.server.db.file ++ (ws.flatMap fun j => requestBytes (s.server.conns j).request) =
          qs.flatMap body ∧
        ws <+: s.server.writersQueue ∧
        (∀ j ∈ ws, ∃ q, (s.server.conns j).client.pc = .waiting q) ∧
        ((∀ i w, (s.server.conns i).clerk.pc ≠ .writing w) → ws = []) := by
  obtain ⟨tr, s, htr, hwork, hfile⟩ : ∃ tr s,
      (groupServer (Cuckoo.lengthConfig UInt8)).trace untouched writeSchedule = some (tr, s) ∧
      s.work 0 = .looping 1 ∧ s.server.db.file = [] := ⟨_, _, rfl, rfl, rfl⟩
  have hinit := untouched_init (Cuckoo.lengthConfig UInt8)
  have hrun := TSys.run_of_trace htr
  exact ⟨tr, s, hinit, hrun, hwork, hfile, log_explains hinit hrun⟩

end LogDirect.Group
