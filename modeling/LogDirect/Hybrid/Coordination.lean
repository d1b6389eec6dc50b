import LogDirect.Hybrid.Refine

/-!
# Coordination of head and tail

The client compares its head with a tail word that the persist threads
overwrite. If the threads take the mutex in the order in which they were
spawned, the tail word is the start of the oldest stretch still owned by a
thread (`Ring.Fifo`), and the wait loops do what they are for:

* a stretch of the previous lap that a thread still owns lies ahead of the
  head (`Ring.Ahead`), provided the client does not rewind onto a stretch at the
  start of the ring: there the tail word is `RING_HEADER` both before the first
  batch of the lap is persisted and after the whole ring is;
* once all threads are done the tail word is the clerk's tail, so the client
  does not wait.
-/

namespace LogDirect.Hybrid

open Lib

theorem modify_length_append {α : Type} (l l' : List α) (a : α) (f : α → α) :
    (l ++ a :: l').modify l.length f = l ++ f a :: l' := by
  induction l with
  | nil => rfl
  | cons x l ih => simp [ih]

namespace Ring

/-- A persist thread gets the mutex only after all threads spawned before it. -/
def InOrder (g : Ring) : Event → Prop
  | .persist i => ∀ j < i, ∀ t, g.threads[j]? = some t → t.stage ≠ .pending
  | _ => True

/-- The client rewinds only when no thread owns the start of the ring. -/
def Cleared (g : Ring) : Event → Prop
  | .rewind _ => ∀ u ∈ g.threads, u.stage ≠ .done → u.start ≠ ringHeader
  | _ => True

/-! ## Threads that finish in order -/

/-- The threads that are not done: at most the first one holds the mutex. -/
def Front (mu : Bool) (tails : List (Nat × Nat)) (n : Nat) : List Thread → Prop
  | [] => mu = false ∧ tails = []
  | u :: us => (∀ v ∈ us, v.stage = .pending) ∧
      ((u.stage = .pending ∧ mu = false ∧ tails = []) ∨
        (u.stage = .logged ∧ mu = true ∧ tails = []) ∨
        (u.stage = .posted ∧ mu = true ∧ tails = [(u.tail, n)]))

/-- The threads finish in order, and the tail word is where the first unfinished
one starts. -/
def Fifo (g : Ring) : Prop :=
  ∃ fin rest k, g.threads = fin ++ rest ∧ (∀ u ∈ fin, u.stage = .done) ∧
    Chain g.word k rest g.tail g.clerkLap ∧ Front g.mu g.tails fin.length rest

variable {mu : Bool} {tails : List (Nat × Nat)} {g : Ring}

theorem Front.not_done {n : Nat} {us : List Thread} (h : Front mu tails n us) :
    ∀ u ∈ us, u.stage ≠ .done := by
  cases us with
  | nil => simp
  | cons v us =>
    intro u hu
    rcases List.mem_cons.mp hu with rfl | hu
    · rcases h.2 with h' | h' | h' <;> rw [h'.1] <;> decide
    · rw [h.1 u hu]
      decide

theorem Front.snoc {n : Nat} {us : List Thread} (h : Front mu tails n us) {t : Thread}
    (ht : t.stage = .pending) : Front mu tails n (us ++ [t]) := by
  cases us with
  | nil => exact ⟨by simp, .inl ⟨ht, h⟩⟩
  | cons u us =>
    refine ⟨fun v hv => ?_, h.2⟩
    rcases List.mem_append.mp hv with hv | hv
    · exact h.1 v hv
    · rw [List.mem_singleton.mp hv]
      exact ht

/-- A flush queues its thread behind the others. -/
theorem Fifo.flush (h : g.Fifo) (hwf : g.thread.Wf) : g.flush.Fifo := by
  obtain ⟨fin, rest, k, hthreads, hfin, hchain, hfront⟩ := h
  refine ⟨fin, rest ++ [g.thread], k, ?_, hfin, ?_, hfront.snoc rfl⟩
  · show g.threads ++ [g.thread] = _
    rw [hthreads, List.append_assoc]
  · exact chain_append.mpr ⟨_, _, hchain, rfl, rfl, hwf, rfl, rfl⟩

/-- A thread that is neither pending nor done is the first unfinished one. -/
theorem Fifo.first {fin rest : List Thread} {i : Nat} {t : Thread}
    (hfin : ∀ u ∈ fin, u.stage = .done) (hfront : Front mu tails fin.length rest)
    (ht : (fin ++ rest)[i]? = some t) (hd : t.stage ≠ .done)
    (hp : t.stage = .pending → ∀ j < i, ∀ u, (fin ++ rest)[j]? = some u → u.stage ≠ .pending)
    (hmu : t.stage = .pending → mu = false) : ∃ us, rest = t :: us ∧ i = fin.length := by
  have hge : fin.length ≤ i := by
    by_contra hlt
    rw [List.getElem?_append_left (by omega)] at ht
    exact hd (hfin t (List.mem_of_getElem? ht))
  rw [List.getElem?_append_right hge] at ht
  cases rest with
  | nil => simp at ht
  | cons u us =>
    by_cases hi : i = fin.length
    · rw [hi, Nat.sub_self, List.getElem?_cons_zero, Option.some.injEq] at ht
      exact ⟨us, by rw [ht], hi⟩
    · -- a later thread is pending, so the first unfinished one must not be
      obtain ⟨d, hd'⟩ : ∃ d, i - fin.length = d + 1 := ⟨i - fin.length - 1, by omega⟩
      rw [hd', List.getElem?_cons_succ] at ht
      have htp : t.stage = .pending := hfront.1 t (List.mem_of_getElem? ht)
      have hup : u.stage = .pending := by
        rcases hfront.2 with h' | h' | h'
        · exact h'.1
        · rw [hmu htp] at h'
          cases h'.2.1
        · rw [hmu htp] at h'
          cases h'.2.1
      exact absurd hup (hp htp fin.length (by omega) u (by simp))

/-- Steps in order keep the threads finishing in order. -/
theorem Fifo.step {g' : Ring} {e : Event} (h : g.Fifo) (hwf : g.Wf) (hord : g.InOrder e)
    (hs : g.Step e g') : g'.Fifo := by
  cases hs with
  | stay => exact h
  | post hhead hlap hfit hguard => exact h
  | rewind hlap hguard => exact h
  | take hseq hpos hfit hlt => exact h
  | @takeFull w hseq hpos hfit hlap hge =>
    have hsize := g.size_take w
    refine Fifo.flush (show (g.take w).Fifo from h) (thread_wf hwf.tail_ge ?_ ?_)
    · rw [hsize]
      show g.tail + _ < maxAsyncSize
      omega
    · exact placedFrom_append.mpr ⟨hwf.opened, hpos, trivial⟩
  | flush hlap => exact h.flush (thread_wf hwf.tail_ge hwf.fits hwf.opened)
  | @persist i t ht hst hmu =>
    obtain ⟨fin, rest, k, hthreads, hfin, hchain, hfront⟩ := h
    rw [hthreads] at ht
    obtain ⟨us, rfl, rfl⟩ := Fifo.first hfin hfront ht (by rw [hst]; decide)
      (fun _ => hthreads ▸ hord) (fun _ => hmu)
    refine ⟨fin, { t with stage := .logged } :: us, k, ?_, hfin, ?_, hfront.1, ?_⟩
    · show g.threads.modify _ _ = _
      rw [hthreads, modify_length_append]
    · exact hchain.modify 0 .logged
    · refine .inr (.inl ⟨rfl, rfl, ?_⟩)
      rcases hfront.2 with h' | h' | h'
      · exact h'.2.2
      · exact h'.2.2
      · rw [hmu] at h'
        cases h'.2.1
  | @announce i t ht hst =>
    obtain ⟨fin, rest, k, hthreads, hfin, hchain, hfront⟩ := h
    rw [hthreads] at ht
    obtain ⟨us, rfl, rfl⟩ := Fifo.first hfin hfront ht (by rw [hst]; decide)
      (fun hp => by rw [hst] at hp; cases hp) (fun hp => by rw [hst] at hp; cases hp)
    refine ⟨fin, { t with stage := .posted } :: us, k, ?_, hfin, ?_, hfront.1, ?_⟩
    · show g.threads.modify _ _ = _
      rw [hthreads, modify_length_append]
    · exact hchain.modify 0 .posted
    · rcases hfront.2 with h' | h' | h'
      · rw [hst] at h'
        cases h'.1
      · refine .inr (.inr ⟨rfl, h'.2.1, ?_⟩)
        show g.tails ++ [(t.tail, fin.length)] = _
        rw [h'.2.2]
        rfl
      · rw [hst] at h'
        cases h'.1
  | @deliver w i ws htails =>
    obtain ⟨fin, rest, k, hthreads, hfin, hchain, hfront⟩ := h
    cases rest with
    | nil =>
      rw [hfront.2] at htails
      cases htails
    | cons u us =>
      obtain ⟨hpend, hst⟩ := hfront
      rcases hst with h' | h' | h'
      · rw [h'.2.2] at htails
        cases htails
      · rw [h'.2.2] at htails
        cases htails
      · rw [h'.2.2] at htails
        cases htails
        refine ⟨fin ++ [{ u with stage := .done }], us, u.nextLap, ?_, ?_, hchain.2.2.2, ?_⟩
        · show g.threads.modify _ _ = _
          rw [hthreads, modify_length_append, List.append_assoc]
          rfl
        · intro v hv
          rcases List.mem_append.mp hv with hv | hv
          · exact hfin v hv
          · rw [List.mem_singleton.mp hv]
        · cases us with
          | nil => exact ⟨rfl, rfl⟩
          | cons v vs =>
            exact ⟨fun x hx => hpend x (List.mem_cons_of_mem _ hx),
              .inl ⟨hpend v List.mem_cons_self, rfl, rfl⟩⟩

/-- Once all threads are done the tail word is the clerk's tail. -/
theorem Fifo.drained (h : g.Fifo) (hall : ∀ u ∈ g.threads, u.stage = .done) : g.word = g.tail := by
  obtain ⟨fin, rest, k, hthreads, hfin, hchain, hfront⟩ := h
  cases rest with
  | nil => exact hchain.1
  | cons u us =>
    refine absurd (hall u ?_) (hfront.not_done u List.mem_cons_self)
    rw [hthreads]
    simp

/-! ## The head stays behind what the threads own -/

/-- A stretch owned by a thread was written in the current lap, or in the
previous one and lies ahead of the head. -/
def Ahead (g : Ring) : Prop :=
  ∀ u ∈ g.threads, u.stage ≠ .done → u.lap = g.lap ∨ (u.lap + 1 = g.lap ∧ g.head < u.start)

/-- If an older lap still owns something, so does the stretch at the tail word. -/
theorem Ahead.word (h : g.Ahead) (hf : g.Fifo) {u : Thread} (hu : u ∈ g.threads)
    (hd : u.stage ≠ .done) (hlap : u.lap ≠ g.lap) :
    u.lap + 1 = g.lap ∧ g.head < g.word ∧ g.word ≤ u.start := by
  obtain ⟨fin, rest, k, hthreads, hfin, hchain, hfront⟩ := hf
  have hrest : u ∈ rest := by
    rw [hthreads] at hu
    rcases List.mem_append.mp hu with hu | hu
    · exact absurd (hfin u hu) hd
    · exact hu
  have hold : u.lap + 1 = g.lap := by
    rcases h u hu hd with h' | h'
    · exact absurd h' hlap
    · exact h'.1
  cases rest with
  | nil => simp at hrest
  | cons v us =>
    -- the first unfinished thread is at least as old
    obtain ⟨-, hle, -, hstart, -⟩ := hchain.bounds.2 u hrest
    have hv : v ∈ g.threads := by
      rw [hthreads]
      simp
    have hvd := hfront.not_done v List.mem_cons_self
    have hvstart : v.start = g.word := hchain.1
    have hvlap : v.lap = k := hchain.2.1
    rcases h v hv hvd with h' | ⟨h', h''⟩
    · omega
    · exact ⟨hold, by omega, hstart (by omega)⟩

/-- Steps in order that rewind onto a cleared start keep the head behind. -/
theorem Ahead.step {g' : Ring} {e : Event} (h : g.Ahead) (hwf : g.Wf) (hf : g.Fifo)
    (hclear : g.Cleared e) (hs : g.Step e g') : g'.Ahead := by
  -- a flush adds a stretch of the current lap
  have hflush : ∀ f : Ring, f.Ahead → f.clerkLap = f.lap → f.flush.Ahead := by
    intro f hfa hlap u hu hd
    rcases List.mem_append.mp hu with hu | hu
    · exact hfa u hu hd
    · rw [List.mem_singleton.mp hu]
      exact .inl hlap
  -- the stage of a thread does not move its stretch
  have hstage : e ≠ .flush → (∀ w, e ≠ .take w) → g'.lap = g.lap → g'.head = g.head →
      g'.Ahead := by
    intro hnf hnt hlap hhead u hu hd
    obtain ⟨v, hv, heq, hvd⟩ := hs.origin hwf hnf hnt hu
    have hold := h v hv (hvd hd)
    rw [heq, hlap, hhead]
    exact hold
  cases hs with
  | stay => exact h
  | @post r hhead hlap hfit hguard =>
    intro u hu hd
    by_cases hul : u.lap = g.lap
    · exact .inl hul
    · obtain ⟨hold, hword, hstart⟩ := h.word hf hu hd hul
      refine .inr ⟨hold, ?_⟩
      show g.head + r.length < u.start
      omega
  | @rewind r hlap hguard =>
    intro u hu hd
    have hul : u.lap = g.lap := by
      by_contra hul
      have := h.word hf hu hd hul
      omega
    refine .inr ⟨by rw [hul], ?_⟩
    show ringHeader + r.length < u.start
    have hlen := r.length_le
    have hbatch : maxRequest - ringHeader < batchSize := by decide
    rcases (hwf.chain.starts (.inl rfl)).2 u hu with h' | h'
    · exact absurd h' (hclear u hu hd)
    · omega
  | take hseq hpos hfit hlt => exact h
  | @takeFull w hseq hpos hfit hlap hge => exact hflush (g.take w) h hlap
  | flush hlap => exact hflush g h hlap
  | persist ht hst hmu => exact hstage (by simp) (by simp) rfl rfl
  | announce ht hst => exact hstage (by simp) (by simp) rfl rfl
  | deliver htails => exact hstage (by simp) (by simp) rfl rfl

end Ring

end LogDirect.Hybrid
