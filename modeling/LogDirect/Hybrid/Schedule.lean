import LogDirect.Hybrid.Drive

/-!
# Calls first, persist threads later

Schedules in which the persist threads stay away until the calls are made. The
client then never waits (`Untouched.calls`), where its records go is a
computation on lengths (`Ring.load_writes`), and afterwards the threads can be
run to their end one by one, in any order (`threads_finish`).
-/

namespace LogDirect.Hybrid

open Lib TSys Conn

/-! ## Calls before any persist thread runs -/

/-- Between two calls, and no persist thread has run so far. -/
structure Untouched (s : Conn × Shared) : Prop where
  atRest : AtRest s
  word : s.1.ring.word = ringHeader
  pending : ∀ u ∈ s.1.ring.threads, u.stage = .pending
  mu : s.1.ring.mu = false
  logged : s.1.ring.logged = []

/-- A fresh connection. -/
theorem fresh_untouched (sh : Shared) (writeBuf : Nat) {flag : Nat} (m m' : Mem)
    (hflag : flag ≠ clientDone) : Untouched (Conn.fresh writeBuf flag m m', sh) := by
  refine ⟨⟨fresh_sound sh writeBuf m m' hflag, rfl, rfl⟩, rfl, ?_, rfl, rfl⟩
  intro u hu
  cases hu

variable {c : Conn} {s : Conn × Shared} {i : Nat}

/-- What others do to memory does not matter, as long as the connection keeps its
invariant. -/
theorem Untouched.frame {sh sh' : Shared} (h : Untouched (c, sh)) (hinv : c.Inv sh'.mem) :
    Untouched (c, sh') :=
  ⟨⟨⟨hinv, h.atRest.sound.wf⟩, h.atRest.idle, h.atRest.toClient⟩, h.word, h.pending, h.mu, h.logged⟩

/-- The first record of a connection. -/
theorem fresh_sendWrite (writeBuf flag : Nat) (m m' : Mem) (r : Record) :
    (Conn.fresh writeBuf flag m m').ring.sendWrite r =
        ((Conn.fresh writeBuf flag m m').ring.advance r).take ⟨0, r, ringHeader⟩ ∧
      ∀ (sh : Shared) (a : Nat), sh.sendWrite a (Conn.fresh writeBuf flag m m').ring r =
        sh.take a ⟨0, r, ringHeader⟩ := by
  have hlen := r.length_le
  have hfit : (Conn.fresh writeBuf flag m m').ring.head + r.length < maxAsyncSize := by
    have : ringHeader + (maxRequest - ringHeader) < maxAsyncSize := by decide
    show ringHeader + r.length < maxAsyncSize
    omega
  have hshort : (Conn.fresh writeBuf flag m m').ring.size + r.length < batchSize := by
    have : maxRequest - ringHeader < batchSize := by decide
    show 0 + r.length < batchSize
    omega
  exact sendWrite_short hfit hshort

theorem init_untouched (h : system.init s) : Untouched s := by
  obtain ⟨c, sh⟩ := s
  obtain ⟨-, writeBuf, flag, m, m', hflag, rfl⟩ := h
  exact fresh_untouched sh writeBuf m m' hflag

/-- What a record put into the ring leaves of the persist threads. -/
theorem Ring.sendWrite_untouched (g : Ring) (r : Record)
    (hp : ∀ u ∈ g.threads, u.stage = .pending) :
    (g.sendWrite r).word = g.word ∧ (g.sendWrite r).mu = g.mu ∧
      (g.sendWrite r).logged = g.logged ∧ ∀ u ∈ (g.sendWrite r).threads, u.stage = .pending := by
  have hflush : ∀ f : Ring, (∀ u ∈ f.threads, u.stage = .pending) →
      ∀ u ∈ f.flush.threads, u.stage = .pending := by
    intro f hf u hu
    rcases List.mem_append.mp hu with hu | hu
    · exact hf u hu
    · rw [List.mem_singleton.mp hu]
      rfl
  have hput : ∀ f : Ring, (∀ u ∈ f.threads, u.stage = .pending) →
      (f.put r).word = f.word ∧ (f.put r).mu = f.mu ∧ (f.put r).logged = f.logged ∧
        ∀ u ∈ (f.put r).threads, u.stage = .pending := by
    intro f hf
    unfold Ring.put
    split
    · exact ⟨rfl, rfl, rfl, hf⟩
    · exact ⟨rfl, rfl, rfl, hflush (f.take (f.next r)) hf⟩
  unfold Ring.sendWrite
  split
  · exact hput (g.advance r) hp
  · exact hput (g.rewound r) (hflush g hp)

/-- While no persist thread has run, `SendWrite` never waits. -/
theorem Untouched.write {sh : Shared} (h : Untouched (c, sh)) (r : Record) :
    ∃ c' m, Drives [.write r] (c, sh)
        (c', { sh with mem := m }.sendWrite c.clerk.writeBuf c.ring r) ∧
      Untouched (c', { sh with mem := m }.sendWrite c.clerk.writeBuf c.ring r) ∧
      c'.ring = c.ring.sendWrite r ∧ c'.clerk.writeBuf = c.clerk.writeBuf := by
  have hge : ringHeader ≤ c.ring.tail := h.atRest.sound.wf.tail_ge
  have hhead : c.ring.head = c.ring.tail + c.ring.size := h.atRest.head_eq
  have hword : c.ring.word = ringHeader := h.word
  obtain ⟨c', m, hd, hrest, hring, hbuf, -⟩ := write_completes h.atRest r (by omega) (by
    intro hfull
    have hlen := r.length_le
    have : ringHeader + (maxRequest - ringHeader) < maxAsyncSize := by decide
    omega)
  obtain ⟨h1, h2, h3, h4⟩ := c.ring.sendWrite_untouched r h.pending
  refine ⟨c', m, hd, ⟨hrest, ?_, ?_, ?_, ?_⟩, hring, hbuf⟩
  · show c'.ring.word = _
    rw [hring, h1]
    exact h.word
  · show ∀ u ∈ c'.ring.threads, _
    rw [hring]
    exact h4
  · show c'.ring.mu = _
    rw [hring, h2]
    exact h.mu
  · show c'.ring.logged = _
    rw [hring, h3]
    exact h.logged

/-- A sequence of writes. -/
theorem Untouched.writes (h : Untouched s) (rs : List Record) :
    ∃ s', Drives (rs.map .write) s s' ∧ Untouched s' ∧
      s'.1.ring = rs.foldl Ring.sendWrite s.1.ring ∧
      s'.1.clerk.writeBuf = s.1.clerk.writeBuf := by
  induction rs generalizing s with
  | nil => exact ⟨s, .refl s, h, rfl, rfl⟩
  | cons r rs ih =>
    obtain ⟨c, sh⟩ := s
    obtain ⟨c₁, m, hd₁, hu₁, hring₁, hbuf₁⟩ := h.write r
    obtain ⟨s', hd, hu, hring, hbuf⟩ := ih hu₁
    refine ⟨s', hd₁.trans hd, hu, ?_, hbuf.trans hbuf₁⟩
    rw [hring]
    show rs.foldl Ring.sendWrite c₁.ring = _
    rw [hring₁]
    rfl

/-- Any sequence of calls runs to its end before any persist thread does. -/
theorem Untouched.calls (h : Untouched s) (qs : List Call) (hqs : ∀ q ∈ qs, q ≠ .close) :
    ∃ s', Drives qs s s' ∧ Untouched s' := by
  induction qs generalizing s with
  | nil => exact ⟨s, .refl s, h⟩
  | cons q qs ih =>
    have hstep : ∃ s', Drives [q] s s' ∧ Untouched s' := by
      obtain ⟨c, sh⟩ := s
      have hkept : (c.client.call q).1.pc.call = some q → (∀ r, q ≠ .write r) →
          ∃ s', Drives [q] (c, sh) s' ∧ Untouched s' := by
        intro hcall hw
        obtain ⟨c', sh', hd, hrest, hring⟩ := call_completes h.atRest hcall hw
        refine ⟨(c', sh'), hd, hrest, ?_, ?_, ?_, ?_⟩
        · exact (congrArg Ring.word hring).trans h.word
        · show ∀ u ∈ c'.ring.threads, _
          rw [hring]
          exact h.pending
        · exact (congrArg Ring.mu hring).trans h.mu
        · exact (congrArg Ring.logged hring).trans h.logged
      cases q with
      | write r =>
        obtain ⟨c', m, hd, hu, -⟩ := h.write r
        exact ⟨_, hd, hu⟩
      | get k => exact hkept rfl (by simp)
      | sync => exact hkept rfl (by simp)
      | delete k => exact hkept rfl (by simp)
      | close => exact absurd rfl (hqs .close List.mem_cons_self)
    obtain ⟨s₁, hd₁, hu₁⟩ := hstep
    obtain ⟨s', hd, hu⟩ := ih hu₁ fun q' hq' => hqs q' (List.mem_cons_of_mem _ hq')
    exact ⟨s', hd₁.trans hd, hu⟩

/-! ## Where the records go -/

namespace Ring

/-- The head, the length of the open batch and the number of threads. -/
def load (g : Ring) : Nat × Nat × Nat := (g.head, g.size, g.threads.length)

/-- The load after the clerk has taken a record of length `n`. -/
def loadPut (head size threads n : Nat) : Nat × Nat × Nat :=
  if size + n < batchSize then (head + n, size + n, threads) else (head + n, 0, threads + 1)

/-- The load after `SendWrite` of a record of length `n`. -/
def loadWrite (p : Nat × Nat × Nat) (n : Nat) : Nat × Nat × Nat :=
  if p.1 + n < maxAsyncSize then loadPut p.1 p.2.1 p.2.2 n else loadPut ringHeader 0 (p.2.2 + 1) n

theorem load_sendWrite (g : Ring) (r : Record) :
    (g.sendWrite r).load = loadWrite g.load r.length := by
  have hput : ∀ (f : Ring) (head : Nat), f.head = head + r.length →
      (f.put r).load = loadPut head f.size f.threads.length r.length := by
    intro f head hhead
    unfold Ring.put loadPut
    split
    · simp [load, take, size, records, next, hhead]
    · simp [load, take, flush, size, hhead]
  have hload : loadWrite g.load r.length = if g.head + r.length < maxAsyncSize
      then loadPut g.head g.size g.threads.length r.length
      else loadPut ringHeader 0 (g.threads.length + 1) r.length := rfl
  rw [hload, sendWrite]
  split
  · exact hput (g.advance r) g.head rfl
  · rw [hput (g.rewound r) ringHeader rfl]
    simp [rewound, flush, size]

/-- The ring position of the next record. -/
def nextPos (g : Ring) (r : Record) : Nat :=
  if g.head + r.length < maxAsyncSize then g.tail + g.size else (g.rewound r).tail

/-- `SendWrite` places its record behind the others. -/
theorem placed_sendWrite (g : Ring) (r : Record) :
    (g.sendWrite r).placed = g.placed ++ [⟨g.placed.length, r, g.nextPos r⟩] := by
  have hput : ∀ f : Ring, (f.put r).placed = f.placed ++ [f.next r] := by
    intro f
    unfold Ring.put
    split <;> rfl
  unfold sendWrite nextPos
  split
  · exact hput (g.advance r)
  · exact hput (g.rewound r)

theorem placed_writes (g : Ring) (rs : List Record) :
    g.placed <+: (rs.foldl sendWrite g).placed := by
  induction rs generalizing g with
  | nil => exact List.prefix_refl _
  | cons r rs ih =>
    refine List.IsPrefix.trans ?_ (ih (g.sendWrite r))
    rw [placed_sendWrite]
    exact List.prefix_append _ _

theorem records_placed_writes (g : Ring) (rs : List Record) :
    records (rs.foldl sendWrite g).placed = records g.placed ++ rs := by
  induction rs generalizing g with
  | nil => simp
  | cons r rs ih =>
    rw [List.foldl_cons, ih, placed_sendWrite, records_append]
    simp [records]

theorem length_placed_writes (g : Ring) (rs : List Record) :
    (rs.foldl sendWrite g).placed.length = g.placed.length + rs.length := by
  have h := congrArg List.length (records_placed_writes g rs)
  simpa [records] using h

/-- Within a lap only full batches are handed to threads. -/
theorem full_writes {g : Ring} {rs : List Record} (hfit : g.head + Batch.total rs < maxAsyncSize)
    (hfull : ∀ u ∈ g.threads, batchSize ≤ u.size) :
    ∀ u ∈ (rs.foldl sendWrite g).threads, batchSize ≤ u.size := by
  induction rs generalizing g with
  | nil => exact hfull
  | cons r rs ih =>
    rw [Batch.total_cons] at hfit
    have hr : g.head + r.length < maxAsyncSize := by omega
    have hsend : g.sendWrite r = (g.advance r).put r := if_pos hr
    have hhead : (g.sendWrite r).head = g.head + r.length := by
      rw [hsend, Ring.put]
      split <;> rfl
    refine ih (g := g.sendWrite r) (by omega) fun u hu => ?_
    rw [hsend, Ring.put] at hu
    split at hu
    · exact hfull u hu
    · rename_i hge
      rcases List.mem_append.mp hu with hu | hu
      · exact hfull u hu
      · rw [List.mem_singleton.mp hu]
        show batchSize ≤ ((g.advance r).take _).size
        rw [size_take]
        exact Nat.le_of_not_lt hge

/-- Within a lap the client does not rewind. -/
theorem lap_writes {g : Ring} {rs : List Record} (hfit : g.head + Batch.total rs < maxAsyncSize) :
    (rs.foldl sendWrite g).lap = g.lap := by
  induction rs generalizing g with
  | nil => rfl
  | cons r rs ih =>
    rw [Batch.total_cons] at hfit
    have hsend : g.sendWrite r = (g.advance r).put r := if_pos (by omega)
    have hput : (g.sendWrite r).head = g.head + r.length ∧ (g.sendWrite r).lap = g.lap := by
      rw [hsend, Ring.put]
      split <;> exact ⟨rfl, rfl⟩
    rw [List.foldl_cons, ih (by omega), hput.2]

theorem load_writes (g : Ring) (rs : List Record) :
    (rs.foldl sendWrite g).load = (rs.map Record.length).foldl loadWrite g.load := by
  induction rs generalizing g with
  | nil => rfl
  | cons r rs ih =>
    simp only [List.foldl_cons, List.map_cons]
    rw [ih, load_sendWrite]

end Ring

/-! ## Persist threads run to their end -/

/-- Persist threads get the mutex in the order they were spawned. -/
def InOrder (s : Conn × Shared) : Label → Prop
  | .persist i => ∀ j < i, ∀ t, s.1.clerk.threads[j]? = some t → t.stage ≠ .pending
  | _ => True

/-- The connection after thread `i`, holding `t`, has run to its end. -/
def Conn.finished (c : Conn) (i : Nat) (t : Thread) : Conn :=
  c.background t.tail (c.clerk.threads.modify i fun t => { t with stage := .done }) false
    (c.clerk.logged ++ t.recs) []

/-- A pending thread can append its batch when the mutex is free. -/
theorem thread_appends (sh : Shared) {t : Thread} (hmu : c.clerk.mu = false)
    (ht : c.clerk.threads[i]? = some t) (hst : t.stage = .pending) :
    system.step (c, sh) (.persist i) = some (c.background c.client.bufTail
      (c.clerk.threads.modify i fun t => { t with stage := .logged }) true
      (c.clerk.logged ++ t.recs) c.toClient, { sh with log := sh.log ++ t.buffer }) := by
  show c.step sh (.persist i) = _
  simp only [Conn.step, ht, hst, hmu, and_self, if_true]
  rfl

/-- A pending thread can run to its end: it appends its batch, posts the tail word, and the
tail word is delivered. -/
theorem thread_finishes (sh : Shared) {t : Thread} (he : c.toClient = []) (hmu : c.clerk.mu = false)
    (ht : c.clerk.threads[i]? = some t) (hst : t.stage = .pending) :
    ∃ tr, system.Run (c, sh) tr (c.finished i t, { sh with log := sh.log ++ t.buffer }) ∧
      calls tr = [] ∧ ∀ p ∈ tr, p = ((c, sh), .persist i) ∨ p.2 = .post i ∨ p.2 = .toClient := by
  let c₁ := c.background c.client.bufTail
    (c.clerk.threads.modify i fun t => { t with stage := .logged }) true
    (c.clerk.logged ++ t.recs) c.toClient
  let c₂ := c₁.background c.client.bufTail
    (c₁.clerk.threads.modify i fun t => { t with stage := .posted }) true
    (c.clerk.logged ++ t.recs) [.tail t.tail i]
  let sh' : Shared := { sh with log := sh.log ++ t.buffer }
  have h₁ : system.step (c, sh) (.persist i) = some (c₁, sh') := thread_appends sh hmu ht hst
  have ht₁ : c₁.clerk.threads[i]? = some { t with stage := .logged } := by
    show (c.clerk.threads.modify i _)[i]? = _
    simp [ht]
  have h₂ : system.step (c₁, sh') (.post i) = some (c₂, sh') := by
    show c₁.step sh' (.post i) = _
    simp only [Conn.step, ht₁, if_true]
    show some ((_ : Conn), sh') = some (c₂, sh')
    congr 2
    show Conn.mk c.client _ c.toClerk (c.toClient ++ [.tail t.tail i]) = _
    rw [he]
    rfl
  have h₃ : system.step (c₂, sh') .toClient = some (c.finished i t, sh') := by
    have hthreads : (c₂.clerk.threads.modify i fun t => { t with stage := .done }) =
        c.clerk.threads.modify i fun t => { t with stage := .done } := by
      show ((c.clerk.threads.modify i _).modify i _).modify i _ = _
      rw [List.modify_modify_eq, List.modify_modify_eq]
      rfl
    show c₂.step sh' .toClient = _
    simp only [Conn.step]
    show some ((c₂.background t.tail (c₂.clerk.threads.modify i _) false
      (c.clerk.logged ++ t.recs) [], sh')) = _
    rw [hthreads]
    rfl
  exact ⟨_, .snoc (.snoc (.snoc .nil h₁) h₂) h₃, rfl, by simp⟩

/-- A condition on the thread's append is all there is to check. -/
theorem meets_of_persist {ok : Conn × Shared → Label → Prop} {tr : List ((Conn × Shared) × Label)}
    (htr : ∀ p ∈ tr, p = (s, .persist i) ∨ p.2 = .post i ∨ p.2 = .toClient)
    (hfirst : ok s (.persist i)) (hpost : ∀ s, ok s (.post i)) (hdeliver : ∀ s, ok s .toClient) :
    Meets ok tr := by
  intro p hp
  rcases htr p hp with rfl | hl | hl
  · exact hfirst
  · rw [hl]
    exact hpost p.1
  · rw [hl]
    exact hdeliver p.1

/-- The threads of the list come each after all pending ones that are older. -/
def InTurn (threads : List Thread) (is : List Nat) : Prop :=
  ∀ pre i post, is = pre ++ i :: post → ∀ j < i, ∀ t, threads[j]? = some t →
    t.stage = .pending → j ∈ pre

theorem inTurn_range (threads : List Thread) (n : Nat) : InTurn threads (List.range n) := by
  intro pre i post hrange j hj _ _ _
  have hsorted : (List.range n).Pairwise (· < ·) := List.pairwise_lt_range
  have hmem : j ∈ List.range n := by
    have hi : i ∈ List.range n := by
      rw [hrange]
      exact List.mem_append_right _ List.mem_cons_self
    rw [List.mem_range] at hi ⊢
    omega
  rw [hrange] at hmem
  rw [hrange, List.pairwise_append, List.pairwise_cons] at hsorted
  rcases List.mem_append.mp hmem with hmem | hmem
  · exact hmem
  · rcases List.mem_cons.mp hmem with rfl | hmem
    · exact absurd hj (Nat.lt_irrefl _)
    · exact absurd (hsorted.2.1.1 j hmem) (Nat.lt_asymm hj)

/-- Pending threads can run to their end in any order; the last one leaves its
tail word. -/
theorem threads_finish (is : List Nat) (hnodup : is.Nodup) (sh : Shared) (he : c.toClient = [])
    (hmu : c.clerk.mu = false)
    (hp : ∀ i ∈ is, ∃ t, c.clerk.threads[i]? = some t ∧ t.stage = .pending) :
    ∃ tr word threads logged log,
      system.Run (c, sh) tr (c.background word threads false logged [], { sh with log := log }) ∧
      calls tr = [] ∧
      (∀ j, threads[j]? = (c.clerk.threads[j]?).map fun t =>
        if j ∈ is then { t with stage := .done } else t) ∧
      word = (is.getLast?.bind fun i => c.clerk.threads[i]?).elim c.client.bufTail Thread.tail ∧
      (∀ p ∈ tr, p.2 ≠ .client) ∧ (InTurn c.clerk.threads is → Meets InOrder tr) := by
  induction is generalizing c sh with
  | nil =>
    have hsame : c.background c.client.bufTail c.clerk.threads c.clerk.mu c.clerk.logged
        c.toClient = c := rfl
    rw [hmu, he] at hsame
    have hrun : system.Run (c, sh) [] (c.background c.client.bufTail c.clerk.threads false
        c.clerk.logged [], sh) := by
      rw [hsame]
      exact .nil
    refine ⟨[], _, _, _, sh.log, hrun, rfl, fun j => ?_, rfl, by simp, fun _ => .nil⟩
    simp
  | cons i is ih =>
    obtain ⟨hnot, hnodup⟩ := List.nodup_cons.mp hnodup
    obtain ⟨t, ht, hst⟩ := hp i List.mem_cons_self
    obtain ⟨tr₁, hrun₁, hcalls₁, hlabels₁⟩ := thread_finishes sh he hmu ht hst
    have hthreads₁ : ∀ j, (c.finished i t).clerk.threads[j]? =
        (c.clerk.threads[j]?).map fun t => if j = i then { t with stage := .done } else t := by
      intro j
      show (c.clerk.threads.modify i _)[j]? = _
      rw [List.getElem?_modify]
      by_cases hji : i = j
      · simp [hji]
      · simp [hji, Ne.symm hji]
    have hp₁ : ∀ j ∈ is, ∃ t', (c.finished i t).clerk.threads[j]? = some t' ∧
        t'.stage = .pending := by
      intro j hj
      obtain ⟨t', ht', hst'⟩ := hp j (List.mem_cons_of_mem _ hj)
      have hji : j ≠ i := fun h => hnot (h ▸ hj)
      exact ⟨t', by rw [hthreads₁, ht']; simp [hji], hst'⟩
    obtain ⟨tr, word, threads, logged, log, hrun, hcalls, hthreads, hlast, hlabels, hord⟩ :=
      ih hnodup { sh with log := sh.log ++ t.buffer } rfl rfl hp₁
    refine ⟨tr₁ ++ tr, word, threads, logged, log, hrun₁.trans hrun,
      by rw [calls_append, hcalls₁, hcalls]; rfl, fun j => ?_, ?_, fun p hmem => ?_,
      fun hturn => meets_append.mpr ⟨?_, hord ?_⟩⟩
    · rw [hthreads, hthreads₁, Option.map_map]
      congr 1
      funext u
      by_cases hji : j = i
      · simp [hji]
      · simp [hji]
    · rw [hlast]
      cases is with
      | nil =>
        simp only [List.getLast?_nil, Option.bind_none, Option.elim_none, List.getLast?_singleton,
          Option.bind_some, ht, Option.elim_some]
        rfl
      | cons k is =>
        obtain ⟨j, hj⟩ : ∃ j, (k :: is).getLast? = some j := by
          rw [List.getLast?_eq_some_getLast (List.cons_ne_nil k is)]
          exact ⟨_, rfl⟩
        have hji : j ≠ i := fun h => hnot (h ▸ List.mem_of_getLast? hj)
        obtain ⟨u, hu, -⟩ := hp j (List.mem_cons_of_mem _ (List.mem_of_getLast? hj))
        rw [List.getLast?_cons_cons, hj]
        simp [hthreads₁, hu, hji]
    · rcases List.mem_append.mp hmem with hmem | hmem
      · rcases hlabels₁ p hmem with rfl | hl | hl
        · simp
        · simp [hl]
        · simp [hl]
      · exact hlabels p hmem
    · refine meets_of_persist hlabels₁ (fun j hj u hu hpend => ?_) (fun _ => trivial)
        (fun _ => trivial)
      exact absurd (hturn [] i is rfl j hj u hu hpend) List.not_mem_nil
    · -- the threads before it have run, or the first one is among them
      intro pre k post his j hj u hu hpend
      rw [hthreads₁] at hu
      obtain ⟨v, hv, rfl⟩ := Option.map_eq_some_iff.mp hu
      by_cases hji : j = i
      · rw [if_pos hji] at hpend
        cases hpend
      · rw [if_neg hji] at hpend
        have hmem := hturn (i :: pre) k post (by rw [his]; rfl) j hj v hv hpend
        exact (List.mem_cons.mp hmem).resolve_left hji

/-- Threads of which none holds the mutex can all be run to their end. -/
theorem all_finish (sh : Shared) (he : c.toClient = []) (hmu : c.clerk.mu = false)
    (hst : ∀ u ∈ c.clerk.threads, u.stage = .pending ∨ u.stage = .done) :
    ∃ tr word logged log, system.Run (c, sh) tr
        (c.background word (c.clerk.threads.map fun t => { t with stage := .done }) false logged [],
          { sh with log := log }) ∧ calls tr = [] := by
  let is := (List.range c.clerk.threads.length).filter fun i =>
    (c.clerk.threads[i]?).any fun t => t.stage = .pending
  have his : ∀ {i : Nat}, i ∈ is ↔ ∃ t, c.clerk.threads[i]? = some t ∧ t.stage = .pending := by
    intro i
    simp only [is, List.mem_filter, List.mem_range, Option.any_eq_true, decide_eq_true_eq]
    constructor
    · rintro ⟨-, h⟩
      exact h
    · rintro ⟨t, ht, hpend⟩
      exact ⟨(List.getElem?_eq_some_iff.mp ht).1, t, ht, hpend⟩
  obtain ⟨tr, word, threads, logged, log, hrun, hcalls, hthreads, -⟩ :=
    threads_finish is (List.nodup_range.filter _) sh he hmu fun i hi => his.mp hi
  have hall : threads = c.clerk.threads.map fun t => { t with stage := .done } := by
    refine List.ext_getElem? fun j => ?_
    rw [hthreads, List.getElem?_map]
    refine Option.map_congr fun t ht => ?_
    split
    · rfl
    · rename_i hnot
      have hpend : t.stage ≠ .pending := fun h => hnot (his.mpr ⟨t, ht, h⟩)
      rw [← (hst t (List.mem_of_getElem? ht)).resolve_left hpend]
  rw [hall] at hrun
  exact ⟨tr, word, logged, log, hrun, hcalls⟩

/-! ## A concrete start -/

/-- A server with an empty store, and its first client. -/
def boot : Conn × Shared :=
  (Conn.fresh 0 0 (fun _ => 0) (fun _ => 0),
   { mem := fun _ => 0, index := fun _ => none, db := fun _ => none, log := [], muts := [] })

theorem boot_init : system.init boot :=
  ⟨⟨rfl, rfl, rfl, by simp [boot]⟩, 0, 0, _, _, by decide, rfl⟩

theorem boot_load : boot.1.ring.load = (8, 0, 0) := rfl

/-- The first record lies at the start of the ring. -/
theorem boot_first (r : Record) (rs : List Record) :
    ((r :: rs).foldl Ring.sendWrite boot.1.ring).placed[0]? = some ⟨0, r, ringHeader⟩ := by
  obtain ⟨l, hl⟩ := Ring.placed_writes (boot.1.ring.sendWrite r) rs
  have hpos : boot.1.ring.nextPos r = ringHeader := by
    have hlen := r.length_le
    have hsum : ringHeader + (maxRequest - ringHeader) < maxAsyncSize := by decide
    exact if_pos (show ringHeader + r.length < maxAsyncSize by omega)
  rw [Ring.placed_sendWrite, hpos] at hl
  rw [List.foldl_cons, ← hl]
  rfl

theorem zero_notMem_replicate {k : UInt8} (hk : k ≠ 0) (n : Nat) : 0 ∉ List.replicate n k := by
  intro h
  exact hk (List.eq_of_mem_replicate h).symm

theorem sample_fits (k : UInt8) {n : Nat} (hn : n ≤ 8175) :
    sizeofRequest + [k].length + (List.replicate n k).length ≤ maxRequest - ringHeader := by
  rw [List.length_replicate]
  simp only [sizeofRequest, maxRequest, ringHeader, List.length_singleton]
  omega

/-- A `PUT` of the key `[k]` with a value of `n` bytes. -/
def sample (k : UInt8) (n : Nat) (hk : k ≠ 0 := by decide) (hn : n ≤ 8175 := by decide) :
    Record where
  op := .put
  key := [k]
  val := List.replicate n k
  isWrite := .inl rfl
  key_cstr := zero_notMem_replicate hk 1
  val_cstr := zero_notMem_replicate hk n
  fits := sample_fits k hn

@[simp] theorem length_sample (k : UInt8) (n : Nat) (hk : k ≠ 0) (hn : n ≤ 8175) :
    (sample k n hk hn).length = n + 9 := by
  simp [sample, Record.length, sizeofRequest]
  omega

@[simp] theorem key_sample (k : UInt8) (n : Nat) (hk : k ≠ 0) (hn : n ≤ 8175) :
    (sample k n hk hn).key = [k] := rfl

/-- The key `[k]`. -/
def sampleKey (k : UInt8) (hk : k ≠ 0 := by decide) : Key where
  bytes := [k]
  cstr := zero_notMem_replicate hk 1
  fits := sample_fits k (Nat.zero_le 8175)

end LogDirect.Hybrid
