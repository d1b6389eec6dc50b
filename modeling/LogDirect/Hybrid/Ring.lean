import LogDirect.Hybrid.Batch

/-!
# The ring protocol

The coordination of `buf_head_`, the tail word and the persist threads, with the
messages taken out: an abstract machine over ring positions. A thread owns the
stretch `[start, start + size)` of the ring from the flush that created it until
its tail word is delivered; consecutive stretches join (`Chain`), and one that
ends a lap is followed by one at `RING_HEADER` in the next lap.

`Ring.Wf` holds in every run. The connection is mapped to this machine in
`Refine`.
-/

namespace LogDirect.Hybrid

open Lib

/-! ## Persist threads as stretches of the ring -/

namespace Thread

/-- The bytes of a thread's batch. -/
def size (u : Thread) : Nat := Batch.total (records u.recs)

/-- The lap in which the next batch starts. -/
def nextLap (u : Thread) : Nat := if u.size < batchSize then u.lap + 1 else u.lap

/-- A thread holds a batch, and its tail word is the position behind it. -/
structure Wf (u : Thread) : Prop where
  start_ge : ringHeader ≤ u.start
  fits : u.start + u.size < maxAsyncSize
  tail_eq : u.tail = if u.size < batchSize then ringHeader else u.start + u.size
  placed : PlacedFrom u.start u.recs
  buffer : u.buffer = Batch.bytes (records u.recs)

end Thread

/-- The stretches of the threads join from position `p` in lap `l` to position
`q` in lap `l'`. -/
def Chain : Nat → Nat → List Thread → Nat → Nat → Prop
  | p, l, [], q, l' => p = q ∧ l = l'
  | p, l, u :: us, q, l' => u.start = p ∧ u.lap = l ∧ u.Wf ∧ Chain u.tail u.nextLap us q l'

variable {p l q l' i : Nat} {us : List Thread}

theorem chain_append {vs : List Thread} :
    Chain p l (us ++ vs) q l' ↔ ∃ m k, Chain p l us m k ∧ Chain m k vs q l' := by
  induction us generalizing p l with
  | nil =>
    constructor
    · intro h
      exact ⟨p, l, ⟨rfl, rfl⟩, h⟩
    · rintro ⟨m, k, ⟨rfl, rfl⟩, h⟩
      exact h
  | cons u us ih =>
    simp only [List.cons_append, Chain, ih]
    constructor
    · rintro ⟨h1, h2, h3, m, k, h4, h5⟩
      exact ⟨m, k, ⟨h1, h2, h3, h4⟩, h5⟩
    · rintro ⟨m, k, ⟨h1, h2, h3, h4⟩, h5⟩
      exact ⟨h1, h2, h3, m, k, h4, h5⟩

/-- What a chain looks like from both of its ends. -/
theorem Chain.bounds (h : Chain p l us q l') :
    (l ≤ l' ∧ (l = l' → p ≤ q)) ∧ ∀ u ∈ us, u.Wf ∧ l ≤ u.lap ∧ u.lap ≤ l' ∧
      (u.lap = l → p ≤ u.start) ∧ (u.lap = l' → u.start + u.size ≤ q) := by
  induction us generalizing p l with
  | nil =>
    obtain ⟨rfl, rfl⟩ := h
    simp
  | cons u us ih =>
    obtain ⟨rfl, rfl, hwf, hrest⟩ := h
    obtain ⟨⟨hle, hpq⟩, hall⟩ := ih hrest
    have htail := hwf.tail_eq
    have hnext : u.nextLap = if u.size < batchSize then u.lap + 1 else u.lap := rfl
    -- a stretch that does not end its lap is directly followed by the next one
    have hcase : (u.nextLap = u.lap + 1) ∨ (u.nextLap = u.lap ∧ u.tail = u.start + u.size) := by
      by_cases hlt : u.size < batchSize
      · rw [if_pos hlt] at hnext
        exact .inl hnext
      · rw [if_neg hlt] at hnext htail
        exact .inr ⟨hnext, htail⟩
    refine ⟨⟨by omega, fun heq => by omega⟩, fun v hv => ?_⟩
    rcases List.mem_cons.mp hv with rfl | hv
    · exact ⟨hwf, Nat.le_refl _, by omega, fun _ => Nat.le_refl _, fun heq => by omega⟩
    · obtain ⟨hv1, hv2, hv3, hv4, hv5⟩ := hall v hv
      refine ⟨hv1, by omega, hv3, fun heq => ?_, hv5⟩
      have := hv4 (by omega)
      omega

/-- A batch starts at the beginning of the ring, or behind a full batch. -/
theorem Chain.starts (h : Chain p l us q l') (hp : p = ringHeader ∨ ringHeader + batchSize ≤ p) :
    (q = ringHeader ∨ ringHeader + batchSize ≤ q) ∧
      ∀ u ∈ us, u.start = ringHeader ∨ ringHeader + batchSize ≤ u.start := by
  induction us generalizing p l with
  | nil =>
    obtain ⟨rfl, rfl⟩ := h
    exact ⟨hp, by simp⟩
  | cons u us ih =>
    obtain ⟨rfl, rfl, hwf, hrest⟩ := h
    have htail : u.tail = ringHeader ∨ ringHeader + batchSize ≤ u.tail := by
      have h1 := hwf.tail_eq
      have h2 := hwf.start_ge
      split at h1
      · exact .inl h1
      · exact .inr (by omega)
    obtain ⟨hq, hall⟩ := ih hrest htail
    refine ⟨hq, fun v hv => ?_⟩
    rcases List.mem_cons.mp hv with rfl | hv
    · exact hp
    · exact hall v hv

/-- An element of a modified list is an old one or the modified one. -/
theorem mem_modify {α : Type} {l : List α} {f : α → α} {x : α} (h : x ∈ l.modify i f) :
    x ∈ l ∨ ∃ a, l[i]? = some a ∧ x = f a := by
  induction l generalizing i with
  | nil => simp at h
  | cons y l ih =>
    cases i with
    | zero =>
      rcases List.mem_cons.mp h with rfl | h
      · exact .inr ⟨y, rfl, rfl⟩
      · exact .inl (List.mem_cons_of_mem _ h)
    | succ i =>
      rcases List.mem_cons.mp h with rfl | h
      · exact .inl List.mem_cons_self
      · rcases ih h with h | ⟨a, ha, hx⟩
        · exact .inl (List.mem_cons_of_mem _ h)
        · exact .inr ⟨a, by simpa using ha, hx⟩

/-- The tail word of the last thread is where the chain ends. -/
theorem Chain.last {u : Thread} (h : Chain p l (us ++ [u]) q l') : u.tail = q := by
  obtain ⟨m, k, -, -, -, -, htail, -⟩ := chain_append.mp h
  exact htail

/-- Stages do not matter to a chain. -/
theorem Chain.modify (h : Chain p l us q l') (i : Nat) (st : Stage) :
    Chain p l (us.modify i fun t => { t with stage := st }) q l' := by
  induction us generalizing p l i with
  | nil => simpa using h
  | cons u us ih =>
    obtain ⟨h1, h2, h3, h4⟩ := h
    cases i with
    | zero => exact ⟨h1, h2, ⟨h3.start_ge, h3.fits, h3.tail_eq, h3.placed, h3.buffer⟩, h4⟩
    | succ i =>
      rw [List.modify_succ_cons]
      exact ⟨h1, h2, h3, ih h4 i⟩

theorem recs_modify (us : List Thread) (i : Nat) (st : Stage) :
    (us.modify i fun t => { t with stage := st }).flatMap Thread.recs =
      us.flatMap Thread.recs := by
  induction us generalizing i with
  | nil => simp
  | cons u us ih =>
    cases i with
    | zero => rfl
    | succ i => simp only [List.modify_succ_cons, List.flatMap_cons, ih i]

/-- The records the threads have written to the log, in thread order. -/
def persisted (us : List Thread) : List Stored :=
  us.flatMap fun u => if u.stage = .pending then [] else u.recs

theorem mem_persisted {w : Stored} :
    w ∈ persisted us ↔ ∃ (j : Nat) (u : Thread), us[j]? = some u ∧ u.stage ≠ .pending ∧
      w ∈ u.recs := by
  unfold persisted
  rw [List.mem_flatMap]
  constructor
  · rintro ⟨u, hu, hw⟩
    obtain ⟨j, hj⟩ := List.getElem?_of_mem hu
    by_cases hst : u.stage = .pending
    · simp [hst] at hw
    · exact ⟨j, u, hj, hst, by simpa [hst] using hw⟩
  · rintro ⟨j, u, hj, hst, hw⟩
    exact ⟨u, List.mem_of_getElem? hj, by simpa [hst] using hw⟩

theorem persisted_modify_pending {t : Thread} {st : Stage} (ht : us[i]? = some t)
    (hp : t.stage = .pending) (hst : st ≠ .pending) :
    (persisted (us.modify i fun t => { t with stage := st })).Perm (persisted us ++ t.recs) := by
  induction us generalizing i with
  | nil => simp at ht
  | cons u us ih =>
    cases i with
    | zero =>
      simp only [List.getElem?_cons_zero, Option.some.injEq] at ht
      subst ht
      simp only [persisted, List.modify_zero_cons, List.flatMap_cons, if_neg hst, if_pos hp,
        List.nil_append]
      exact List.perm_append_comm
    | succ i =>
      rw [List.getElem?_cons_succ] at ht
      simp only [persisted, List.modify_succ_cons, List.flatMap_cons, List.append_assoc]
      exact (ih ht).append_left _

theorem persisted_modify_other {t : Thread} {st : Stage} (ht : us[i]? = some t)
    (hp : t.stage ≠ .pending) (hst : st ≠ .pending) :
    persisted (us.modify i fun t => { t with stage := st }) = persisted us := by
  induction us generalizing i with
  | nil => simp at ht
  | cons u us ih =>
    cases i with
    | zero =>
      simp only [List.getElem?_cons_zero, Option.some.injEq] at ht
      subst ht
      simp only [persisted, List.modify_zero_cons, List.flatMap_cons, if_neg hst, if_neg hp]
    | succ i =>
      rw [List.getElem?_cons_succ] at ht
      simp only [persisted, List.modify_succ_cons, List.flatMap_cons]
      rw [show us.flatMap _ = persisted us from rfl, ← ih ht]
      rfl

/-! ## The machine -/

/-- The client's head, tail word and lap; the clerk's tail, lap, records and
threads; the tail words in flight with the thread each one releases. -/
structure Ring where
  head : Nat
  word : Nat
  lap : Nat
  tail : Nat
  clerkLap : Nat
  openRecs : List Stored
  placed : List Stored
  threads : List Thread
  mu : Bool
  logged : List Stored
  tails : List (Nat × Nat)

namespace Ring

/-- The length of the open batch. -/
def size (g : Ring) : Nat := Batch.total (records g.openRecs)

/-- The thread a flush of the open batch starts. -/
def thread (g : Ring) : Thread where
  buffer := Batch.bytes (records g.openRecs)
  tail := if g.size < batchSize then ringHeader else g.tail + g.size
  stage := .pending
  start := g.tail
  lap := g.clerkLap
  recs := g.openRecs

/-- Take a record into the open batch. -/
def take (g : Ring) (w : Stored) : Ring :=
  { g with openRecs := g.openRecs ++ [w], placed := g.placed ++ [w] }

/-- Hand the open batch to a thread. -/
def flush (g : Ring) : Ring :=
  { g with
    tail := g.thread.tail
    clerkLap := g.thread.nextLap
    threads := g.threads ++ [g.thread]
    openRecs := [] }

def setStage (g : Ring) (i : Nat) (st : Stage) : Ring :=
  { g with threads := g.threads.modify i fun t => { t with stage := st } }

/-- The events that matter to the ring. -/
inductive Event
  | stay
  | post (r : Record)
  | rewind (r : Record)
  | take (w : Stored)
  | flush
  | persist (i : Nat)
  | announce (i : Nat)
  | deliver

/-- One step; the guards of `post` and `rewind` are those of the client's two
wait loops. -/
inductive Step (g : Ring) : Event → Ring → Prop
  | stay : Step g .stay g
  | post {r : Record} (hhead : g.head = g.tail + g.size) (hlap : g.clerkLap = g.lap)
      (hfit : g.head + r.length < maxAsyncSize)
      (hguard : ¬ (g.head < g.word ∧ g.word ≤ g.head + r.length)) :
      Step g (.post r) { g with head := g.head + r.length }
  | rewind {r : Record} (hlap : g.clerkLap = g.lap + 1) (hguard : g.word < g.head) :
      Step g (.rewind r) { g with head := ringHeader + r.length, lap := g.lap + 1 }
  | take {w : Stored} (hseq : w.seq = g.placed.length) (hpos : w.pos = g.tail + g.size)
      (hfit : w.pos + w.record.length < maxAsyncSize)
      (hlt : g.size + w.record.length < batchSize) : Step g (.take w) (g.take w)
  | takeFull {w : Stored} (hseq : w.seq = g.placed.length) (hpos : w.pos = g.tail + g.size)
      (hfit : w.pos + w.record.length < maxAsyncSize) (hlap : g.clerkLap = g.lap)
      (hge : batchSize ≤ g.size + w.record.length) : Step g (.take w) (g.take w).flush
  | flush (hlap : g.clerkLap = g.lap) : Step g .flush g.flush
  | persist {i : Nat} {t : Thread} (ht : g.threads[i]? = some t) (hst : t.stage = .pending)
      (hmu : g.mu = false) :
      Step g (.persist i) { g.setStage i .logged with mu := true, logged := g.logged ++ t.recs }
  | announce {i : Nat} {t : Thread} (ht : g.threads[i]? = some t) (hst : t.stage = .logged) :
      Step g (.announce i) { g.setStage i .posted with tails := g.tails ++ [(t.tail, i)] }
  | deliver {w i : Nat} {ws : List (Nat × Nat)} (htails : g.tails = (w, i) :: ws) :
      Step g .deliver { g.setStage i .done with word := w, mu := false, tails := ws }

/-! ## Well-formedness -/

/-- What holds of the ring in every run. -/
structure Wf (g : Ring) : Prop where
  chain : Chain ringHeader 0 g.threads g.tail g.clerkLap
  fits : g.tail + g.size < maxAsyncSize
  short : g.size < batchSize
  opened : PlacedFrom g.tail g.openRecs
  partition : g.placed = g.threads.flatMap Thread.recs ++ g.openRecs
  seqs : g.placed.map Stored.seq = List.range g.placed.length
  flight : ∀ p ∈ g.tails, ∃ t, g.threads[p.2]? = some t ∧ t.stage ≠ .pending ∧ t.tail = p.1
  logged : g.logged.Perm (persisted g.threads)

@[simp] theorem size_take (g : Ring) (w : Stored) :
    (g.take w).size = g.size + w.record.length := by
  simp [size, take, records]

variable {g g' : Ring} {e : Event}

theorem Wf.tail_ge (h : g.Wf) : ringHeader ≤ g.tail := by
  have hb := h.chain.starts (.inl rfl)
  rcases hb.1 with h' | h' <;> omega

/-- The thread of a flush is well formed. -/
theorem thread_wf (hge : ringHeader ≤ g.tail) (hfit : g.tail + g.size < maxAsyncSize)
    (hopen : PlacedFrom g.tail g.openRecs) : g.thread.Wf :=
  ⟨hge, hfit, rfl, hopen, rfl⟩

/-- A flush keeps the ring well formed, whatever the size of the batch. -/
theorem flush_wf (hchain : Chain ringHeader 0 g.threads g.tail g.clerkLap)
    (hfit : g.tail + g.size < maxAsyncSize) (hopen : PlacedFrom g.tail g.openRecs)
    (hpart : g.placed = g.threads.flatMap Thread.recs ++ g.openRecs)
    (hseqs : g.placed.map Stored.seq = List.range g.placed.length)
    (hflight : ∀ p ∈ g.tails, ∃ t, g.threads[p.2]? = some t ∧ t.stage ≠ .pending ∧ t.tail = p.1)
    (hlogged : g.logged.Perm (persisted g.threads)) : g.flush.Wf := by
  have hge : ringHeader ≤ g.tail := by
    rcases (hchain.starts (.inl rfl)).1 with h' | h' <;> omega
  have hwf := thread_wf hge hfit hopen
  refine ⟨?_, ?_, ?_, trivial, ?_, hseqs, ?_, ?_⟩
  · exact chain_append.mpr ⟨_, _, hchain, rfl, rfl, hwf, rfl, rfl⟩
  · show g.thread.tail + 0 < maxAsyncSize
    have h1 := hwf.tail_eq
    have h2 := hwf.fits
    split at h1
    · rw [h1]
      decide
    · omega
  · show 0 < batchSize
    decide
  · show g.placed = (g.threads ++ [g.thread]).flatMap Thread.recs ++ []
    rw [hpart]
    simp [thread]
  · intro p hp
    obtain ⟨t, ht, hrest⟩ := hflight p hp
    refine ⟨t, ?_, hrest⟩
    exact List.getElem?_append_left (List.getElem?_eq_some_iff.mp ht).1 |>.trans ht
  · show g.logged.Perm (persisted (g.threads ++ [g.thread]))
    simpa [persisted, thread] using hlogged

/-- Records are numbered in the order they are taken. -/
theorem seqs_snoc {l : List Stored} {w : Stored} (h : l.map Stored.seq = List.range l.length)
    (hw : w.seq = l.length) :
    (l ++ [w]).map Stored.seq = List.range (l ++ [w]).length := by
  simp [h, hw, List.range_succ]

/-- Tail words in flight stay those of threads that have left `pending`. -/
theorem flight_modify {us : List Thread} {tails : List (Nat × Nat)} (i : Nat) {st : Stage}
    (hst : st ≠ .pending)
    (h : ∀ p ∈ tails, ∃ t, us[p.2]? = some t ∧ t.stage ≠ .pending ∧ t.tail = p.1) :
    ∀ p ∈ tails, ∃ t, (us.modify i fun t => { t with stage := st })[p.2]? = some t ∧
      t.stage ≠ .pending ∧ t.tail = p.1 := by
  intro p hp
  obtain ⟨t, ht, hstage, htail⟩ := h p hp
  by_cases hi : i = p.2
  · exact ⟨{ t with stage := st }, by simp [ht, hi], hst, htail⟩
  · exact ⟨t, by simp [ht, hi], hstage, htail⟩

/-- Every step keeps the ring well formed. -/
theorem Wf.step (h : g.Wf) (hs : g.Step e g') : g'.Wf := by
  cases hs with
  | stay => exact h
  | post hhead hlap hfit hguard =>
    exact ⟨h.chain, h.fits, h.short, h.opened, h.partition, h.seqs, h.flight, h.logged⟩
  | rewind hlap hguard =>
    exact ⟨h.chain, h.fits, h.short, h.opened, h.partition, h.seqs, h.flight, h.logged⟩
  | @take w hseq hpos hfit hlt =>
    refine ⟨h.chain, ?_, ?_, ?_, ?_, ?_, h.flight, h.logged⟩
    · rw [size_take]
      show g.tail + _ < maxAsyncSize
      omega
    · rw [size_take]
      exact hlt
    · exact placedFrom_append.mpr ⟨h.opened, hpos, trivial⟩
    · show g.placed ++ [w] = g.threads.flatMap Thread.recs ++ (g.openRecs ++ [w])
      rw [h.partition, List.append_assoc]
    · exact seqs_snoc h.seqs hseq
  | @takeFull w hseq hpos hfit hlap hge =>
    refine flush_wf h.chain ?_ ?_ ?_ ?_ h.flight h.logged
    · rw [size_take]
      show g.tail + _ < maxAsyncSize
      omega
    · exact placedFrom_append.mpr ⟨h.opened, hpos, trivial⟩
    · show g.placed ++ [w] = g.threads.flatMap Thread.recs ++ (g.openRecs ++ [w])
      rw [h.partition, List.append_assoc]
    · exact seqs_snoc h.seqs hseq
  | flush hlap =>
    exact flush_wf h.chain h.fits h.opened h.partition h.seqs h.flight h.logged
  | @persist i t ht hst hmu =>
    refine ⟨h.chain.modify i _, h.fits, h.short, h.opened, ?_, h.seqs,
      flight_modify i (by decide) h.flight, ?_⟩
    · show g.placed = _
      rw [h.partition]
      exact congrArg (· ++ g.openRecs) (recs_modify g.threads i .logged).symm
    · exact (h.logged.append_right _).trans
        (persisted_modify_pending ht hst (by decide)).symm
  | @announce i t ht hst =>
    have hp : t.stage ≠ .pending := by rw [hst]; decide
    refine ⟨h.chain.modify i _, h.fits, h.short, h.opened, ?_, h.seqs, ?_, ?_⟩
    · show g.placed = _
      rw [h.partition]
      exact congrArg (· ++ g.openRecs) (recs_modify g.threads i .posted).symm
    · refine flight_modify i (by decide) fun p hp' => ?_
      rcases List.mem_append.mp hp' with hp' | hp'
      · exact h.flight p hp'
      · rw [List.mem_singleton.mp hp']
        exact ⟨t, ht, hp, rfl⟩
    · have hlog := h.logged
      rw [← persisted_modify_other ht hp (show Stage.posted ≠ .pending by decide)] at hlog
      exact hlog
  | @deliver w i ws htails =>
    obtain ⟨t, ht, hp, -⟩ := h.flight (w, i) (by rw [htails]; simp)
    refine ⟨h.chain.modify i _, h.fits, h.short, h.opened, ?_, h.seqs, ?_, ?_⟩
    · show g.placed = _
      rw [h.partition]
      exact congrArg (· ++ g.openRecs) (recs_modify g.threads i .done).symm
    · refine flight_modify i (by decide) fun p hp' => ?_
      exact h.flight p (by rw [htails]; exact List.mem_cons_of_mem _ hp')
    · have hlog := h.logged
      rw [← persisted_modify_other ht hp (show Stage.done ≠ .pending by decide)] at hlog
      exact hlog

/-- Only flushes add threads. -/
theorem Step.length_eq (hs : g.Step e g') (hflush : e ≠ .flush) (htake : ∀ w, e ≠ .take w) :
    g'.threads.length = g.threads.length := by
  cases hs with
  | @take w hseq hpos hfit hlt => exact absurd rfl (htake w)
  | @takeFull w hseq hpos hfit hlap hge => exact absurd rfl (htake w)
  | flush hlap => exact absurd rfl hflush
  | persist ht hst hmu => exact List.length_modify _ _ _
  | announce ht hst => exact List.length_modify _ _ _
  | deliver htails => exact List.length_modify _ _ _
  | _ => rfl

/-- Outside flushes, a step at most moves a thread to another stage, and no
thread that is done is revived. -/
theorem Step.origin (h : g.Wf) (hs : g.Step e g') (hflush : e ≠ .flush) (htake : ∀ w, e ≠ .take w)
    {u : Thread} (hu : u ∈ g'.threads) :
    ∃ v ∈ g.threads, u = { v with stage := u.stage } ∧ (u.stage ≠ .done → v.stage ≠ .done) := by
  have hstage : ∀ i t st, g.threads[i]? = some t → (st ≠ .done → t.stage ≠ .done) →
      u ∈ (g.setStage i st).threads →
      ∃ v ∈ g.threads, u = { v with stage := u.stage } ∧ (u.stage ≠ .done → v.stage ≠ .done) := by
    intro i t st ht hst hu
    rcases mem_modify hu with hu | ⟨t', ht', hut⟩
    · exact ⟨u, hu, rfl, id⟩
    · rw [ht] at ht'
      cases ht'
      rw [hut]
      exact ⟨t, List.mem_of_getElem? ht, rfl, hst⟩
  cases hs with
  | stay => exact ⟨u, hu, rfl, id⟩
  | post hhead hlap hfit hguard => exact ⟨u, hu, rfl, id⟩
  | rewind hlap hguard => exact ⟨u, hu, rfl, id⟩
  | @take w hseq hpos hfit hlt => exact absurd rfl (htake w)
  | @takeFull w hseq hpos hfit hlap hge => exact absurd rfl (htake w)
  | flush hlap => exact absurd rfl hflush
  | @persist i t ht hst hmu => exact hstage i t .logged ht (fun _ => by rw [hst]; decide) hu
  | @announce i t ht hst => exact hstage i t .posted ht (fun _ => by rw [hst]; decide) hu
  | @deliver w i ws htails =>
    obtain ⟨t, ht, -⟩ := h.flight (w, i) (by rw [htails]; simp)
    exact hstage i t .done ht (fun hne => absurd rfl hne) hu

end Ring

end LogDirect.Hybrid
