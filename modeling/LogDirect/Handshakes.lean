import LogDirect.Group.Progress
import LogDirect.Hybrid.Rounds

/-!
# The handshake of the four front ends

In each front end a client and its clerk talk by RDMA writes that arrive in the
order they were posted, each at some later time: the request, the record if there
is one, then the flag; and back, the reply, then the flag. Whatever the
interleaving, the clerk takes each request once, in order and whole, and what the
client reads is the reply to it.
-/

namespace LogDirect

open Lib Exchange
open Sync (Seen)

/-- With persistent memory the record of a write is in the clerk's write buffer, whole, when
the clerk can take the request. -/
def RecordArrives {σ : Type} (B : DBType σ) : Prop :=
  ∀ s tr s', (Sync.pmem B).init s → (Sync.pmem B).Run s tr s' →
    s'.1.clerk = .running → s'.1.link.clerk.header = clientDone →
    ∀ r, s'.1.client.pc = .waiting (.write r) →
      s'.1.link.ring.read (s'.1.client.bufHead - r.length) r.encode.length = r.encode

/-- Exactly once, in order and with the reply to the request: sync, persistent memory, group
with any number of clients, and hybrid. -/
theorem handshakes_exactlyOnce {ι σ : Type} [DecidableEq ι] (B : DBType σ) :
    ExactlyOnce (Sync.sync B) (Sync.events B) ∧
      (ExactlyOnce (Sync.pmem B) (Sync.events B) ∧ RecordArrives B) ∧
      (∀ i : ι, ExactlyOnce (Group.system B) (Group.events i)) ∧
      ExactlyOnce Hybrid.system Hybrid.events := by
  refine ⟨Sync.exactlyOnce Sync.syncClient_sends B,
    ⟨Sync.exactlyOnce Sync.pmemClient_sends B, ?_⟩, Group.exactlyOnce B, Hybrid.exactlyOnce⟩
  intro s tr s' hinit hrun _ hflag r hpc
  exact (Sync.run_at Sync.pmemClient_sends hinit hrun).record_arrived hflag hpc

end LogDirect
