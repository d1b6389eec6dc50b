import LogDirect.Lib.TSys
import LogDirect.Lib.Wire

/-!
# The remote path through DRAM to the SSD

`Client3::Write` copies its buffer behind its own memory region, puts `CLIENT_FLAG`
over the first word and sends all of it in one RDMA write. `Server3::Run` polls the
first word, writes the region to its file and acknowledges by an RDMA write of
`SERVER_FLAG`. The bytes of an RDMA write become visible one by one, lowest address
first, and a completion says nothing about how many are visible.
-/

namespace LogDirect.RemotePath

open Lib

def endFlag : Nat := 0x5a5a5a5a5a5a5a5a
def serverFlag : Nat := 0x7f7f7f7f7f7f7f7f
def clientFlag : Nat := 0xf7f7f7f7f7f7f7f7

/-- `*header == flag` -/
def Holds (m : Mem) (flag : Nat) : Prop := m.read 0 8 = leBytes 8 flag

instance (m : Mem) (flag : Nat) : Decidable (Holds m flag) := inferInstanceAs (Decidable (_ = _))

/-- `*header = flag` -/
def setHeader (m : Mem) (flag : Nat) : Mem := m.write 0 (leBytes 8 flag)

/-- Where `Client3` stands: outside a call, in `Write` after the copy, after the flag, polling for
the completion, waiting for the server, and the same for `Close`. -/
inductive ClientPc
  | idle
  | copied
  | flagged
  | polling
  | waiting
  | ending
  | endPolling
  | closed
  deriving DecidableEq

/-- Where `Server3::Run` stands: in its loop on the header, before `write`, `fdatasync`, the flag
and `post_write`, polling for the completion. A short `write` fails the assertion. -/
inductive ServerPc
  | spinning
  | writing
  | syncing
  | marking
  | posting
  | polling
  | done
  | aborted
  deriving DecidableEq

/-- Both memory regions, the bytes in flight, what each `write` put in the file, how many of
these are synced, and the buffers passed to `Write`. -/
structure Ssd where
  clientBuf : Mem
  clientPc : ClientPc
  serverBuf : Mem
  serverPc : ServerPc
  toServer : Wire
  toClient : Wire
  file : List Bytes
  synced : Nat
  calls : List Bytes

inductive Label
  | write (buffer : Bytes)
  | close
  | client
  | server
  /-- `write` stores `k` bytes only -/
  | short (k : Nat)
  | deliverServer
  | deliverClient

namespace Ssd

/-- `Client3::Write` after the copy, and `Client3::Close` after the flag. -/
def client (gLength : Nat) (s : Ssd) : Option Ssd :=
  match s.clientPc with
  | .copied => some { s with clientBuf := setHeader s.clientBuf clientFlag, clientPc := .flagged }
  | .flagged => some { s with
      toServer := s.toServer ++ Wire.post 0 (s.clientBuf.read 0 gLength), clientPc := .polling }
  | .polling => some { s with clientPc := .waiting }
  | .waiting => if Holds s.clientBuf serverFlag then some { s with clientPc := .idle } else none
  | .ending => some { s with
      toServer := s.toServer ++ Wire.post 0 (s.clientBuf.read 0 gLength), clientPc := .endPolling }
  | .endPolling => some { s with clientPc := .closed }
  | .idle => none
  | .closed => none

/-- `Server3::Run` -/
def server (gLength : Nat) (s : Ssd) : Option Ssd :=
  match s.serverPc with
  | .spinning =>
      if Holds s.serverBuf endFlag then some { s with serverPc := .done }
      else if Holds s.serverBuf clientFlag then some { s with serverPc := .writing }
      else none
  | .writing => some { s with file := s.file ++ [s.serverBuf.read 0 gLength], serverPc := .syncing }
  | .syncing => some { s with synced := s.file.length, serverPc := .marking }
  | .marking => some { s with serverBuf := setHeader s.serverBuf serverFlag, serverPc := .posting }
  | .posting => some { s with
      toClient := s.toClient ++ Wire.post 0 (s.serverBuf.read 0 8), serverPc := .polling }
  | .polling => some { s with serverPc := .spinning }
  | .done => none
  | .aborted => none

/-- The next byte becomes visible to the server. -/
def deliverServer (s : Ssd) : Option Ssd :=
  match s.toServer with
  | [] => none
  | p :: w => some { s with serverBuf := s.serverBuf.write p.1 [p.2], toServer := w }

/-- The next byte becomes visible to the client. -/
def deliverClient (s : Ssd) : Option Ssd :=
  match s.toClient with
  | [] => none
  | p :: w => some { s with clientBuf := s.clientBuf.write p.1 [p.2], toClient := w }

def step (gLength : Nat) (s : Ssd) : Label → Option Ssd
  | .write buffer =>
      if s.clientPc = .idle ∧ buffer.length = gLength then
        some { s with clientBuf := s.clientBuf.write 0 buffer, clientPc := .copied,
                      calls := s.calls ++ [buffer] }
      else none
  | .close =>
      if s.clientPc = .idle then
        some { s with clientBuf := setHeader s.clientBuf endFlag, clientPc := .ending }
      else none
  | .client => s.client gLength
  | .server => s.server gLength
  | .short k =>
      if s.serverPc = .writing ∧ k < gLength then
        some { s with file := s.file ++ [s.serverBuf.read 0 k], serverPc := .aborted }
      else none
  | .deliverServer => s.deliverServer
  | .deliverClient => s.deliverClient

/-- Connected, nothing sent, and none of the flags in the server's header. -/
def Init (s : Ssd) : Prop :=
  s.clientPc = .idle ∧ s.serverPc = .spinning ∧ s.toServer = [] ∧ s.toClient = [] ∧ s.file = [] ∧
    s.synced = 0 ∧ s.calls = [] ∧ ¬ Holds s.serverBuf clientFlag ∧ ¬ Holds s.serverBuf serverFlag ∧
    ¬ Holds s.serverBuf endFlag

end Ssd

/-- Any calls, and any interleaving of client, server and deliveries. -/
def ssd (gLength : Nat) : TSys Ssd Label where
  init := Ssd.Init
  step := Ssd.step gLength

/-! ## Flags -/

theorem Holds.first {m : Mem} {flag : Nat} (h : Holds m flag) : m 0 = UInt8.ofNat flag := by
  have hhead := congrArg List.head? h
  exact Option.some.inj hhead

theorem Holds.last {m : Mem} {flag : Nat} (h : Holds m flag) :
    some (m 7) = (leBytes 8 flag).getLast? :=
  congrArg List.getLast? h

theorem holds_setHeader (m : Mem) (flag : Nat) : Holds (setHeader m flag) flag := by
  have hread := m.read_write 0 (leBytes 8 flag)
  rwa [length_leBytes] at hread

/-- What lies behind the header stays. -/
theorem read_setHeader (m : Mem) (flag n : Nat) : (setHeader m flag).read 8 n = m.read 8 n :=
  m.read_write_of_disjoint (.inr (by rw [length_leBytes]))

end LogDirect.RemotePath
