import LogDirect.Hybrid.Reads
import LogDirect.Lib.Slots

/-!
# The server

`HybridServer::Listen` gives each connection a ring: a slot of the device
buffer while `bitmap_` has a free one (`DMABUF` is on), a buffer of its own
otherwise. The callback of `CLOSE` gives the ring back, and a later connection
may get it. All clerks share `im_index_`, the store and the log.

Addresses are physical: a context that maps the device buffer anew sees the same
bytes. `Wf` says that the rings in use do not meet (`Wf.apart`), so a connection
keeps its invariant whatever the others do (`Wf.step`).
-/

namespace LogDirect.Hybrid

open Lib TSys

/-- `MAX_DMABUF_SIZE` -/
def maxDmabufSize : Nat := 4 * 1024 * 1024

/-- A connection with the slot of its ring; `none` is a buffer from `new`. -/
structure Session where
  conn : Conn
  slot : Option Nat

/-- `HybridServer` with its connections in the order they were made. -/
structure Server where
  dmabuf : Nat
  bitmap : BitVec 64
  sessions : List Session
  shared : Shared

/-- Two rings that do not meet. -/
def Apart (a b : Nat) : Prop := a + maxAsyncSize ≤ b ∨ b + maxAsyncSize ≤ a

instance (a b : Nat) : Decidable (Apart a b) := inferInstanceAs (Decidable (_ ∨ _))

theorem Apart.symm {a b : Nat} (h : Apart a b) : Apart b a := Or.symm h

namespace Session

/-- The ring has not been given back. -/
def Live (x : Session) : Prop := x.conn.clerk.pc ≠ .closed

instance (x : Session) : Decidable x.Live := inferInstanceAs (Decidable (_ ≠ _))

theorem Live.of_running {x : Session} (h : x.conn.clerk.pc = .running) : x.Live := by
  unfold Live
  rw [h]
  simp

/-- Where the ring of the session starts. -/
def ring (x : Session) : Nat := x.conn.clerk.writeBuf

end Session

namespace Server

/-- A new connection, or a step of the `i`-th one. `buffer` is what `new` would
return; the other arguments are what the new buffers hold. -/
inductive Move
  | connect (buffer flag : Nat) (clientMsg clerkMsg : Mem)
  | conn (i : Nat) (l : Label)

/-- `new` returns memory that is not in use. -/
def Allocates (s : Server) (buffer : Nat) : Prop :=
  (buffer + maxAsyncSize ≤ s.dmabuf ∨ s.dmabuf + maxDmabufSize ≤ buffer) ∧
    ∀ x ∈ s.sessions, x.Live → x.slot = none → Apart buffer x.ring

instance (s : Server) (buffer : Nat) : Decidable (s.Allocates buffer) :=
  inferInstanceAs (Decidable (_ ∧ _))

/-- One turn of the loop of `Listen` (lines 396–427). -/
def connect (s : Server) (buffer flag : Nat) (clientMsg clerkMsg : Mem) : Option Server :=
  let slot := (~~~ s.bitmap).clz.toNat
  if flag = clientDone then none
  else if slot < maxDmabufSize / maxAsyncSize then
    some { s with
      bitmap := s.bitmap + 1#64 <<< (63 - slot)
      sessions := s.sessions ++
        [⟨.fresh (s.dmabuf + maxAsyncSize * slot) flag clientMsg clerkMsg, some slot⟩] }
  else if s.Allocates buffer then
    some { s with sessions := s.sessions ++ [⟨.fresh buffer flag clientMsg clerkMsg, none⟩] }
  else none

/-- The callback `clear_memory` (lines 409–412, 417–420). -/
def clearMemory (s : Server) : Option Nat → BitVec 64
  | some slot => s.bitmap - 1#64 <<< (63 - slot)
  | none => s.bitmap

/-- One step of the server. -/
def step (s : Server) : Move → Option Server
  | .connect buffer flag m m' => s.connect buffer flag m m'
  | .conn i l =>
      match s.sessions[i]? with
      | none => none
      | some x =>
          (x.conn.step s.shared l).map fun (c, sh) =>
            { s with
              bitmap := match l with
                | .callback => s.clearMemory x.slot
                | _ => s.bitmap
              sessions := s.sessions.set i ⟨c, x.slot⟩
              shared := sh }

end Server

/-- Any number of clients at one server, which starts without any. -/
def server : TSys Server Server.Move where
  init s := s.shared.Fresh ∧ s.bitmap = 0 ∧ s.sessions = []
  step := Server.step

/-! ## What a step does -/

namespace Server

/-- A connection is made, with its ring in a free slot or in memory of its own. -/
structure Connects (s s' : Server) (x : Session) : Prop where
  sessions : s'.sessions = s.sessions ++ [x]
  shared : s'.shared = s.shared
  dmabuf : s'.dmabuf = s.dmabuf
  fresh : ∃ flag m m', flag ≠ clientDone ∧ x.conn = Conn.fresh x.ring flag m m'
  ring : (∃ n, x.slot = some n ∧ n < maxDmabufSize / maxAsyncSize ∧
      x.ring = s.dmabuf + maxAsyncSize * n ∧ ¬ Slots.Taken s.bitmap n ∧
      s'.bitmap = s.bitmap + Slots.bit 64 n) ∨
    (x.slot = none ∧ s'.bitmap = s.bitmap ∧ s.Allocates x.ring)

variable {s s' : Server} {i n : Nat} {x : Session} {p : Conn × Shared}

theorem connect_step {buffer flag : Nat} {m m' : Mem}
    (h : server.step s (.connect buffer flag m m') = some s') : ∃ x, s.Connects s' x := by
  have h : s.connect buffer flag m m' = some s' := h
  unfold connect at h
  simp only at h
  split at h
  · cases h
  · rename_i hflag
    split at h
    · rename_i hslot
      have hlt : (~~~ s.bitmap).clz.toNat < 64 := Nat.lt_trans hslot (by decide)
      cases h
      exact ⟨_, rfl, rfl, rfl, ⟨flag, m, m', hflag, rfl⟩,
        .inl ⟨_, rfl, hslot, rfl, Slots.not_taken_firstFree hlt, rfl⟩⟩
    · split at h
      · rename_i halloc
        cases h
        exact ⟨_, rfl, rfl, rfl, ⟨flag, m, m', hflag, rfl⟩, .inr ⟨rfl, rfl, halloc⟩⟩
      · cases h

/-- Session `i`, now `x`, makes the step `l` and is then `c`. -/
structure Steps (s s' : Server) (i : Nat) (l : Label) (x : Session) (c : Conn) : Prop where
  session : s.sessions[i]? = some x
  step : x.conn.step s.shared l = some (c, s'.shared)
  sessions : s'.sessions = s.sessions.set i ⟨c, x.slot⟩
  dmabuf : s'.dmabuf = s.dmabuf
  bitmap : s'.bitmap = s.bitmap ∨ l = .callback ∧
    ∃ n, x.slot = some n ∧ s'.bitmap = s.bitmap - Slots.bit 64 n

theorem conn_step {l : Label} (h : server.step s (.conn i l) = some s') :
    ∃ x c, s.Steps s' i l x c := by
  have h : s.step (.conn i l) = some s' := h
  simp only [step] at h
  split at h
  · cases h
  · rename_i x hx
    rw [Option.map_eq_some_iff] at h
    obtain ⟨⟨c, sh⟩, hstep, rfl⟩ := h
    refine ⟨x, c, hx, hstep, rfl, rfl, ?_⟩
    cases l with
    | callback =>
      cases hslot : x.slot with
      | none => exact .inl rfl
      | some n => exact .inr ⟨rfl, n, rfl, rfl⟩
    | _ => exact .inl rfl

namespace Steps

variable {s s' : Server} {i : Nat} {l : Label} {x : Session} {c : Conn}

theorem self (h : s.Steps s' i l x c) : s'.sessions[i]? = some ⟨c, x.slot⟩ := by
  rw [h.sessions]
  exact List.getElem?_set_self (List.getElem?_eq_some_iff.mp h.session).1

theorem other (h : s.Steps s' i l x c) {j : Nat} (hj : j ≠ i) :
    s'.sessions[j]? = s.sessions[j]? := by
  rw [h.sessions]
  exact List.getElem?_set_ne (Ne.symm hj)

/-- A session after the step is the one that moved or an unchanged one. -/
theorem inv (h : s.Steps s' i l x c) {j : Nat} {y : Session} (hy : s'.sessions[j]? = some y) :
    (j = i ∧ y = ⟨c, x.slot⟩) ∨ (j ≠ i ∧ s.sessions[j]? = some y) := by
  by_cases hj : j = i
  · subst hj
    rw [h.self] at hy
    exact .inl ⟨rfl, (Option.some.inj hy).symm⟩
  · rw [h.other hj] at hy
    exact .inr ⟨hj, hy⟩

end Steps

/-- A session after a connection is made is an old one or the new one. -/
theorem Connects.inv (h : s.Connects s' x) {j : Nat} {y : Session} (hy : s'.sessions[j]? = some y) :
    s.sessions[j]? = some y ∨ (j = s.sessions.length ∧ y = x) := by
  rw [h.sessions, List.getElem?_append] at hy
  split at hy
  · exact .inl hy
  · rw [List.getElem?_singleton] at hy
    split at hy
    · exact .inr ⟨by omega, (Option.some.inj hy).symm⟩
    · cases hy

/-! ## The rings in use do not meet -/

/-- Where the ring of a session lies. -/
def Holds (s : Server) (x : Session) : Prop :=
  (∃ n, x.slot = some n ∧ n < maxDmabufSize / maxAsyncSize ∧ Slots.Taken s.bitmap n ∧
    x.ring = s.dmabuf + maxAsyncSize * n) ∨
  (x.slot = none ∧ (x.ring + maxAsyncSize ≤ s.dmabuf ∨ s.dmabuf + maxDmabufSize ≤ x.ring))

/-- Every connection keeps its invariant, and the rings in use do not meet. -/
structure Wf (s : Server) : Prop where
  inv : ∀ (i : Nat) (x : Session), s.sessions[i]? = some x → x.conn.Inv s.shared.mem
  holds : ∀ (i : Nat) (x : Session), s.sessions[i]? = some x → x.Live → s.Holds x
  apart : ∀ (i j : Nat) (x y : Session), s.sessions[i]? = some x → s.sessions[j]? = some y →
    i ≠ j → x.Live → y.Live → Apart x.ring y.ring

theorem init_wf (h : server.init s) : s.Wf := by
  obtain ⟨-, -, hnil⟩ := h
  constructor
  all_goals rw [hnil]; simp

/-- A slot holds one ring, within the device buffer. -/
theorem slot_apart {d n' : Nat} (h : n ≠ n') :
    Apart (d + maxAsyncSize * n) (d + maxAsyncSize * n') := by
  simp only [Apart, maxAsyncSize]
  omega

theorem slot_within {d : Nat} (h : n < maxDmabufSize / maxAsyncSize) :
    d + maxAsyncSize * n + maxAsyncSize ≤ d + maxDmabufSize := by
  have hsize : maxDmabufSize / maxAsyncSize = 32 := by decide
  rw [hsize] at h
  simp only [maxAsyncSize, maxDmabufSize]
  omega

/-- The ring of a new connection meets no ring in use. -/
theorem Connects.apart {y : Session} (h : s.Connects s' x) (hwf : s.Wf)
    (hy : s.sessions[i]? = some y) (hlive : y.Live) : Apart y.ring x.ring := by
  rcases h.ring with ⟨n, -, hn, hring, hfree, -⟩ | ⟨-, -, hbuf, hfar⟩
  · have hin := slot_within (d := s.dmabuf) hn
    rcases hwf.holds i y hy hlive with ⟨k, -, -, htaken, hring'⟩ | ⟨-, hout⟩
    · have hne : k ≠ n := by
        intro hkn
        exact hfree (hkn ▸ htaken)
      rw [hring, hring']
      exact slot_apart hne
    · rw [hring]
      unfold Apart
      omega
  · rcases hwf.holds i y hy hlive with ⟨k, -, hk, -, hring'⟩ | ⟨hslot, -⟩
    · have hin := slot_within (d := s.dmabuf) hk
      rw [hring']
      unfold Apart
      omega
    · exact (hfar y (List.mem_of_getElem? hy) hlive hslot).symm

theorem Connects.wf (h : s.Connects s' x) (hwf : s.Wf) : s'.Wf := by
  refine ⟨?_, ?_, ?_⟩
  · intro j y hy
    rw [h.shared]
    rcases h.inv hy with hy | ⟨-, rfl⟩
    · exact hwf.inv j y hy
    · obtain ⟨flag, m, m', hflag, hfresh⟩ := h.fresh
      rw [hfresh]
      exact Conn.fresh_inv _ _ _ _ hflag
  · intro j y hy hlive
    have hsize : maxDmabufSize / maxAsyncSize < 64 := by decide
    unfold Holds
    rw [h.dmabuf]
    rcases h.inv hy with hy | ⟨-, rfl⟩
    · rcases hwf.holds j y hy hlive with ⟨k, hslot, hk, htaken, hring⟩ | hout
      · refine .inl ⟨k, hslot, hk, ?_, hring⟩
        rcases h.ring with ⟨n, -, hn, -, hfree, hbits⟩ | ⟨-, hbits, -⟩
        · rw [hbits, Slots.taken_add (by omega) hfree (by omega)]
          exact .inl htaken
        · rw [hbits]
          exact htaken
      · exact .inr hout
    · rcases h.ring with ⟨n, hslot, hn, hring, hfree, hbits⟩ | ⟨hslot, -, hbuf, -⟩
      · refine .inl ⟨n, hslot, hn, ?_, hring⟩
        rw [hbits, Slots.taken_add (by omega) hfree (by omega)]
        exact .inr rfl
      · exact .inr ⟨hslot, hbuf⟩
  · intro j k y z hy hz hne hlive hlive'
    rcases h.inv hy with hy | ⟨rfl, rfl⟩
    · rcases h.inv hz with hz | ⟨-, rfl⟩
      · exact hwf.apart j k y z hy hz hne hlive hlive'
      · exact h.apart hwf hy hlive
    · rcases h.inv hz with hz | ⟨rfl, -⟩
      · exact (h.apart hwf hz hlive').symm
      · exact absurd rfl hne

namespace Steps

variable {s s' : Server} {i : Nat} {l : Label} {x : Session} {c : Conn}

theorem ring (h : s.Steps s' i l x c) (hwf : s.Wf) : Session.ring ⟨c, x.slot⟩ = x.ring :=
  Conn.step_writeBuf (hwf.inv i x h.session) h.step

/-- A ring that has been given back stays so. -/
theorem live (h : s.Steps s' i l x c) (hwf : s.Wf) (hlive : Session.Live ⟨c, x.slot⟩) :
    x.Live := by
  intro hpc
  by_cases hl : l = .serve
  · subst hl
    have hinv := hwf.inv i x h.session
    rw [(Conn.serve_serves hinv.phase hinv.batch h.step).2.1] at hpc
    cases hpc
  · rcases Conn.step_clerk h.step hl with hpc' | ⟨-, hpc'⟩
    · exact hlive (hpc'.trans hpc)
    · exact hlive hpc'

/-- The other connections do not notice. -/
theorem frame (h : s.Steps s' i l x c) (hwf : s.Wf) {j : Nat} {y : Session} (hj : j ≠ i)
    (hy : s.sessions[j]? = some y) : y.conn.Inv s'.shared.mem := by
  refine (hwf.inv j y hy).frame fun hrun a ha ha' => ?_
  refine Conn.step_mem_outside (hwf.inv i x h.session) h.step fun hrun' => ?_
  rcases hwf.apart i j x y h.session hy (Ne.symm hj) (.of_running hrun')
    (.of_running hrun) with hap | hap
  · simp only [Session.ring] at hap
    omega
  · simp only [Session.ring] at hap
    omega

theorem holds_other (h : s.Steps s' i l x c) (hwf : s.Wf) {j : Nat} {y : Session} (hj : j ≠ i)
    (hy : s.sessions[j]? = some y) (hlive : y.Live) : s'.Holds y := by
  have hsize : maxDmabufSize / maxAsyncSize < 64 := by decide
  unfold Holds
  rw [h.dmabuf]
  rcases hwf.holds j y hy hlive with ⟨k, hslot, hk, htaken, hring⟩ | hout
  · refine .inl ⟨k, hslot, hk, ?_, hring⟩
    rcases h.bitmap with hbits | ⟨rfl, n, hslot', hbits⟩
    · rw [hbits]
      exact htaken
    · -- the slot that is given back is another one
      obtain ⟨sync, hpc, -⟩ := Conn.callback_step h.step
      have hlive' : x.Live := by
        unfold Session.Live
        rw [hpc]
        simp
      have hap := hwf.apart i j x y h.session hy (Ne.symm hj) hlive' hlive
      rcases hwf.holds i x h.session hlive' with ⟨n', hn', hlt, htaken', hring'⟩ | ⟨hnone, -⟩
      · rw [hslot'] at hn'
        cases hn'
        have hne : k ≠ n := by
          intro hkn
          rw [hring, hring', hkn] at hap
          unfold Apart at hap
          simp only [maxAsyncSize] at hap
          omega
        rw [hbits, Slots.taken_sub (by omega) htaken' (by omega)]
        exact ⟨htaken, hne⟩
      · rw [hslot'] at hnone
        cases hnone
  · exact .inr hout

theorem holds_self (h : s.Steps s' i l x c) (hwf : s.Wf) (hlive : Session.Live ⟨c, x.slot⟩) :
    s'.Holds ⟨c, x.slot⟩ := by
  have hbits : s'.bitmap = s.bitmap := by
    rcases h.bitmap with hbits | ⟨rfl, -⟩
    · exact hbits
    · obtain ⟨-, -, -, -, rfl⟩ := Conn.callback_step h.step
      exact absurd rfl hlive
  have hold := hwf.holds i x h.session (h.live hwf hlive)
  unfold Holds at hold ⊢
  rw [h.ring hwf, h.dmabuf, hbits]
  exact hold

theorem wf (h : s.Steps s' i l x c) (hwf : s.Wf) : s'.Wf := by
  refine ⟨?_, ?_, ?_⟩
  · intro j y hy
    rcases h.inv hy with ⟨-, rfl⟩ | ⟨hj, hy⟩
    · exact Conn.step_inv (hwf.inv i x h.session) h.step
    · exact h.frame hwf hj hy
  · intro j y hy hlive
    rcases h.inv hy with ⟨-, rfl⟩ | ⟨hj, hy⟩
    · exact h.holds_self hwf hlive
    · exact h.holds_other hwf hj hy hlive
  · intro j k y z hy hz hne hlive hlive'
    rcases h.inv hy with ⟨rfl, rfl⟩ | ⟨hj, hy⟩
    · rcases h.inv hz with ⟨rfl, -⟩ | ⟨hk, hz⟩
      · exact absurd rfl hne
      · rw [h.ring hwf]
        exact hwf.apart j k x z h.session hz hne (h.live hwf hlive) hlive'
    · rcases h.inv hz with ⟨rfl, rfl⟩ | ⟨hk, hz⟩
      · rw [h.ring hwf]
        exact hwf.apart j k y x hy h.session hne hlive (h.live hwf hlive')
      · exact hwf.apart j k y z hy hz hne hlive hlive'

end Steps

/-- Every step keeps the rings apart. -/
theorem Wf.step {l : Move} (hwf : s.Wf) (h : server.step s l = some s') : s'.Wf := by
  cases l with
  | connect buffer flag m m' =>
    obtain ⟨x, hc⟩ := connect_step h
    exact hc.wf hwf
  | conn i l =>
    obtain ⟨x, c, hc⟩ := conn_step h
    exact hc.wf hwf

theorem reachable_wf (h : server.Reachable s) : s.Wf :=
  h.invariant Wf (fun _ => init_wf) fun _ _ _ => Wf.step

/-! ## Runs of one connection -/

/-- The calls made in a run, each with the number of its client. -/
def clientCalls (tr : List (Server × Move)) : List (Nat × Call) :=
  tr.filterMap fun p => match p.2 with
    | .conn i (.call q) => some (i, q)
    | _ => none

/-- The server with `p` as its `i`-th connection and as what is shared. -/
def put (s : Server) (i : Nat) (slot : Option Nat) (p : Conn × Shared) : Server :=
  { s with sessions := s.sessions.set i ⟨p.1, slot⟩, shared := p.2 }

theorem put_self (h : s.sessions[i]? = some x) : s.put i x.slot (x.conn, s.shared) = s := by
  have hset : s.sessions.set i x = s.sessions := by
    obtain ⟨hi, rfl⟩ := List.getElem?_eq_some_iff.mp h
    exact List.set_getElem_self hi
  unfold put
  rw [hset]

theorem put_step {slot : Option Nat} {p' : Conn × Shared} {l : Label} (hi : i < s.sessions.length)
    (hl : l ≠ .callback) (h : system.step p l = some p') :
    server.step (s.put i slot p) (.conn i l) = some (s.put i slot p') := by
  have hx : (s.put i slot p).sessions[i]? = some ⟨p.1, slot⟩ := List.getElem?_set_self hi
  have h : p.1.step (s.put i slot p).shared l = some p' := h
  show (s.put i slot p).step (.conn i l) = _
  have hset : (s.put i slot p).sessions.set i ⟨p'.1, slot⟩ = s.sessions.set i ⟨p'.1, slot⟩ :=
    List.set_set _
  simp only [step, hx, h, Option.map_some, hset]
  cases l with
  | callback => exact absurd rfl hl
  | _ => rfl

/-- The server once the slot `n` has been given back. -/
def released (s : Server) (n : Nat) : Server :=
  { s with bitmap := s.bitmap - 1#64 <<< (63 - n) }

theorem put_callback {p' : Conn × Shared} (hi : i < s.sessions.length)
    (h : system.step p .callback = some p') :
    server.step (s.put i (some n) p) (.conn i .callback) =
      some ((s.put i (some n) p').released n) := by
  have hx : (s.put i (some n) p).sessions[i]? = some ⟨p.1, some n⟩ := List.getElem?_set_self hi
  have h : p.1.step (s.put i (some n) p).shared .callback = some p' := h
  have hset : (s.put i (some n) p).sessions.set i ⟨p'.1, some n⟩ =
      s.sessions.set i ⟨p'.1, some n⟩ := List.set_set _
  show (s.put i (some n) p).step (.conn i .callback) = _
  simp only [step, hx, h, Option.map_some, hset]
  rfl

/-- A run of one connection, up to the callback, is a run of the server. -/
theorem run_conn (hx : s.sessions[i]? = some x) {tr : List ((Conn × Shared) × Label)}
    (hrun : system.Run (x.conn, s.shared) tr p) (hbefore : ∀ e ∈ tr, e.2 ≠ .callback) :
    server.Run s (tr.map fun e => (s.put i x.slot e.1, .conn i e.2)) (s.put i x.slot p) := by
  have hi := (List.getElem?_eq_some_iff.mp hx).1
  induction hrun with
  | nil =>
    rw [put_self hx]
    exact .nil
  | @snoc tr p l p' hrun hstep ih =>
    rw [List.map_append]
    refine .snoc (ih fun e he => hbefore e (List.mem_append_left _ he)) ?_
    exact put_step hi (hbefore (p, l) (by simp)) hstep

theorem clientCalls_append (tr tr' : List (Server × Move)) :
    clientCalls (tr ++ tr') = clientCalls tr ++ clientCalls tr' := List.filterMap_append

theorem clientCalls_conn (s : Server) (i : Nat) (slot : Option Nat)
    (tr : List ((Conn × Shared) × Label)) :
    clientCalls (tr.map fun e => (s.put i slot e.1, .conn i e.2)) = (calls tr).map (i, ·) := by
  induction tr with
  | nil => rfl
  | cons e tr ih =>
    obtain ⟨p, l⟩ := e
    cases l with
    | call q => exact congrArg ((i, q) :: ·) ih
    | _ => exact ih

/-! ## Calls at a server -/

/-- The next client gets the slot `n`. -/
def joined (s : Server) (n : Nat) : Server :=
  { s with
    bitmap := s.bitmap + 1#64 <<< (63 - n)
    sessions := s.sessions ++
      [⟨.fresh (s.dmabuf + maxAsyncSize * n) 0 (fun _ => 0) (fun _ => 0), some n⟩] }

theorem joins (hn : (~~~ s.bitmap).clz.toNat = n) (hlt : n < maxDmabufSize / maxAsyncSize) :
    server.step s (.connect 0 0 (fun _ => 0) (fun _ => 0)) = some (s.joined n) := by
  show s.connect 0 0 _ _ = _
  unfold connect
  simp only [hn]
  rw [if_neg (by decide), if_pos hlt]
  rfl

/-- What a client and its clerk do while nothing else happens. -/
theorem drives (hx : s.sessions[i]? = some x) {qs : List Call}
    (h : Drives qs (x.conn, s.shared) p) :
    ∃ tr, server.Run s tr (s.put i x.slot p) ∧ clientCalls tr = qs.map (i, ·) := by
  obtain ⟨tr, hrun, hfg, rfl⟩ := h
  exact ⟨_, run_conn hx hrun (Foreground.no_callback hfg), clientCalls_conn s i x.slot tr⟩

/-- A client writes a record, and nothing else happens. -/
theorem writes (hx : s.sessions[i]? = some x) (hu : Untouched (x.conn, s.shared)) (r : Record) :
    ∃ tr c m sh, server.Run s tr (s.put i x.slot (c, sh)) ∧ clientCalls tr = [(i, .write r)] ∧
      sh = { s.shared with mem := m }.sendWrite x.ring x.conn.ring r ∧ Untouched (c, sh) ∧
      c.ring = x.conn.ring.sendWrite r ∧ c.clerk.writeBuf = x.ring := by
  obtain ⟨c, m, hd, hu', hring, hbuf⟩ := hu.write r
  obtain ⟨tr, hrun, hcalls⟩ := drives hx hd
  exact ⟨tr, c, m, _, hrun, hcalls, rfl, hu', hring, hbuf⟩

/-- The first record of a client. -/
theorem first_write {a : Nat} {slot : Option Nat}
    (hx : s.sessions[i]? = some ⟨.fresh a 0 (fun _ => 0) (fun _ => 0), slot⟩) (r : Record) :
    ∃ tr c m sh, server.Run s tr (s.put i slot (c, sh)) ∧ clientCalls tr = [(i, .write r)] ∧
      sh = { s.shared with mem := m }.take a ⟨0, r, ringHeader⟩ ∧ Untouched (c, sh) ∧
      c.ring = (boot.1.ring.advance r).take ⟨0, r, ringHeader⟩ ∧ c.clerk.writeBuf = a := by
  obtain ⟨tr, c, m, sh, hrun, hcalls, hsh, hu, hring, hbuf⟩ :=
    writes hx (fresh_untouched _ _ _ _ (by decide)) r
  obtain ⟨hring', hsh'⟩ := fresh_sendWrite a 0 (fun _ => 0) (fun _ => 0) r
  exact ⟨tr, c, m, sh, hrun, hcalls, hsh.trans (hsh' _ _), hu, hring.trans hring', hbuf⟩

/-- A server with an empty store and no client. -/
def idle : Server := ⟨0, 0, [], boot.2⟩

theorem idle_init : server.init idle := ⟨boot_init.1, rfl, rfl⟩

/-- Two clients connect. -/
theorem two_join : ∃ tr, server.Run idle tr ((idle.joined 0).joined 1) ∧ clientCalls tr = [] := by
  have hjoin₀ := joins (s := idle) (n := 0) (by decide) (by decide)
  have hjoin₁ := joins (s := idle.joined 0) (n := 1) (by decide) (by decide)
  exact ⟨_, (TSys.Run.nil.snoc hjoin₀).snoc hjoin₁, rfl⟩

end Server

end LogDirect.Hybrid
