import LogDirect.Cmb.Dmabuf

/-!
# The importer driver

The driver keeps what it acquired in globals. `importer_attach_cmb` assigns each one
before it looks whether the call failed, and unwinds through labels that clear only
what was acquired: a failed call leaves its error pointer behind. Nothing keeps a
second ATTACH from overwriting what the first one acquired. So the driver is whole,
attached or detached, exactly if ATTACH is called while it is detached and fails in no
call that returns an error pointer.
-/

namespace LogDirect.Importer

open Lib TSys
open Cmb (Errno SgEntry)

/-- A kernel pointer: null, `ERR_PTR`, or valid. -/
inductive ErrPtr (α : Type)
  | null
  | err
  | ptr (a : α)
  deriving DecidableEq

/-- The five globals, and what is held whether or not a global still leads to it: the
references to dma-bufs and the attachments, by dma-buf, the mappings, and the devices
from `kzalloc`. -/
structure Globals where
  dmabuf : ErrPtr Nat
  attachment : ErrPtr Nat
  table : ErrPtr SgEntry
  dev : ErrPtr Unit
  fd : Int
  refs : List Nat
  attachments : List Nat
  maps : Nat
  devs : Nat
  deriving DecidableEq

inductive Result
  | ok
  | failed (e : Errno)
  /-- `importer_dmabuf_msg` -/
  | msg (regAddr regSize : Nat)
  deriving DecidableEq

/-- What the calls in `importer_attach_cmb` return. `fd` is what `copy_from_user` leaves in
the global, also where it fails. -/
structure AttachCalls where
  copyFromUser : Bool
  fd : Int
  dmaBufGet : Except Errno Nat
  kzalloc : Bool
  dmaBufDynamicAttach : Except Errno Unit
  dmaBufMapAttachment : Except Errno SgEntry

/-- Each call succeeds. -/
def AttachCalls.Succeed (c : AttachCalls) : Prop :=
  (∃ b, c.dmaBufGet = .ok b) ∧ c.kzalloc = true ∧ (∃ u, c.dmaBufDynamicAttach = .ok u) ∧
    ∃ e, c.dmaBufMapAttachment = .ok e

namespace Globals

/-! ## The kernel's calls -/

def get (s : Globals) (b : Nat) : Globals := { s with dmabuf := .ptr b, refs := b :: s.refs }

def allocDev (s : Globals) : Globals := { s with dev := .ptr (), devs := s.devs + 1 }

def attach (s : Globals) (b : Nat) : Globals :=
  { s with attachment := .ptr b, attachments := b :: s.attachments }

def map (s : Globals) (e : SgEntry) : Globals := { s with table := .ptr e, maps := s.maps + 1 }

/-- `dma_buf_put(dmabuf)`, where null is let pass with a warning and an error pointer faults -/
def dmaBufPut (s : Globals) : Option Globals :=
  match s.dmabuf with
  | .null => some s
  | .err => none
  | .ptr b => some { s with refs := s.refs.erase b }

/-- `dma_buf_detach(dmabuf, attachment)` -/
def dmaBufDetach (s : Globals) : Option Globals :=
  match s.dmabuf, s.attachment with
  | .null, _ => some s
  | _, .null => some s
  | .err, _ => none
  | _, .err => none
  | .ptr _, .ptr b => some { s with attachments := s.attachments.erase b }

/-- `kfree_const(dev->kobj.name)` and `kfree(dev)` -/
def freeDev (s : Globals) : Option Globals :=
  match s.dev with
  | .null => none
  | .err => none
  | .ptr _ => some { s with devs := s.devs - 1 }

/-- `dma_buf_unmap_attachment(attachment, table)` -/
def dmaBufUnmapAttachment (s : Globals) : Option Globals :=
  match s.attachment, s.table with
  | .null, _ => some s
  | .err, _ => none
  | .ptr _, .ptr _ => some { s with maps := s.maps - 1 }
  | .ptr _, _ => some s

def setDmabuf (s : Globals) (p : ErrPtr Nat) : Globals := { s with dmabuf := p }

def setAttachment (s : Globals) (p : ErrPtr Nat) : Globals := { s with attachment := p }

def setTable (s : Globals) (p : ErrPtr SgEntry) : Globals := { s with table := p }

def setDev (s : Globals) (p : ErrPtr Unit) : Globals := { s with dev := p }

def setFd (s : Globals) (fd : Int) : Globals := { s with fd := fd }

/-! ## The three ioctls -/

/-- The label `failed_dev` -/
def failedDev (s : Globals) : Option Globals :=
  s.dmaBufPut.map fun s => s.setDmabuf .null

/-- The label `failed_attach`, which falls through -/
def failedAttach (s : Globals) : Option Globals :=
  s.freeDev.bind fun s => (s.setDev .null).failedDev

/-- The label `failed_attachment` -/
def failedAttachment (s : Globals) : Option Globals :=
  s.dmaBufDetach.bind fun s => (s.setAttachment .null).failedAttach

/-- `importer_attach_cmb` from `dma_buf_map_attachment` on -/
def attachTable (s : Globals) : Except Errno SgEntry → Option (Result × Globals)
  | .error e => (s.setTable .err).failedAttachment.map fun s => (.failed e, s)
  | .ok e => some (.ok, s.map e)

/-- From `dma_buf_dynamic_attach` on -/
def attachBuf (s : Globals) (b : Nat) (c : AttachCalls) : Option (Result × Globals) :=
  match c.dmaBufDynamicAttach with
  | .error e => (s.setAttachment .err).failedAttach.map fun s => (.failed e, s)
  | .ok _ => (s.attach b).attachTable c.dmaBufMapAttachment

/-- `importer_attach_cmb` -/
def importerAttachCmb (s : Globals) (c : AttachCalls) : Option (Result × Globals) :=
  if c.copyFromUser = false then
    some (.failed .efault, s.setFd c.fd)
  else
    match c.dmaBufGet with
    | .error e => some (.failed e, (s.setFd c.fd).setDmabuf .err)
    | .ok b =>
        if c.kzalloc = false then
          (((s.setFd c.fd).get b).setDev .null).failedDev.map fun s => (.failed .enomem, s)
        else
          (((s.setFd c.fd).get b).allocDev).attachBuf b c

/-- `importer_detach_cmb` -/
def importerDetachCmb (s : Globals) : Option (Result × Globals) :=
  if s.table = .null then
    some (.ok, s)
  else
    s.dmaBufUnmapAttachment.bind fun s => (s.setTable .null).dmaBufDetach.bind fun s =>
      (s.setAttachment .null).freeDev.bind fun s => (s.setDev .null).dmaBufPut.map fun s =>
        (.ok, (s.setDmabuf .null).setFd (-1))

/-- `importer_get_cmb`; the fields of the message are 32 bits wide. -/
def importerGetCmb (s : Globals) (copyToUser : Bool) : Option (Result × Globals) :=
  match s.table with
  | .null => some (.ok, s)
  | .err => none
  | .ptr e =>
      if copyToUser = false then some (.failed .efault, s)
      else some (.msg (e.dmaAddress % 2 ^ 32) (e.dmaLen % 2 ^ 32), s)

end Globals

inductive Ioctl
  | attach (c : AttachCalls)
  | detach
  | get (copyToUser : Bool)

namespace Globals

/-- `importer_ioctl`. One that follows a pointer that is not valid does not return. -/
def importerIoctl (s : Globals) : Ioctl → Option (Result × Globals)
  | .attach c => s.importerAttachCmb c
  | .detach => s.importerDetachCmb
  | .get copyToUser => s.importerGetCmb copyToUser

/-- Everything null and nothing held. -/
def detached (fd : Int) : Globals := ⟨.null, .null, .null, .null, fd, [], [], 0, 0⟩

/-- Everything valid, and each thing held once. -/
def attached (fd : Int) (b : Nat) (e : SgEntry) : Globals :=
  ⟨.ptr b, .ptr b, .ptr e, .ptr (), fd, [b], [b], 1, 1⟩

end Globals

/-- Any ioctls, from the state the module is loaded in. -/
def importer : TSys Globals Ioctl where
  init s := s = .detached (-1)
  step s l := (s.importerIoctl l).map Prod.snd

namespace Globals

/-- Detached or attached, and nothing between. -/
def Whole (s : Globals) : Prop := (∃ fd, s = detached fd) ∨ ∃ fd b e, s = attached fd b e

/-- An ATTACH that fails changes nothing, and a DETACH leaves nothing held. -/
def AllOrNothing (s : Globals) (l : Ioctl) : Prop :=
  ∀ r s', s.importerIoctl l = some (r, s') →
    (∀ c, l = .attach c → ∀ e, r = .failed e → s' = s) ∧ (l = .detach → ∃ fd, s' = detached fd)

/-- An ATTACH that cannot copy its argument, or of a detached module where every call succeeds or
only `kzalloc` fails; where it fails the descriptor is the one of before. -/
def Careful (s : Globals) : Ioctl → Prop
  | .attach c => c.copyFromUser = false ∧ c.fd = s.fd ∨ c.copyFromUser = true ∧ s.table = .null ∧
      (c.Succeed ∨ (∃ b, c.dmaBufGet = .ok b) ∧ c.kzalloc = false ∧ c.fd = s.fd)
  | .detach | .get _ => True

/-! ## What ATTACH leaves -/

/-- An ATTACH in `s`, what it returns and the globals it leaves. The error paths give back what was
acquired, and leave the error pointer. -/
inductive Attaches (s : Globals) (c : AttachCalls) : Result → Globals → Prop
  | copy (hcopy : c.copyFromUser = false) : Attaches s c (.failed .efault) (s.setFd c.fd)
  | get {e} (hcopy : c.copyFromUser = true) (hget : c.dmaBufGet = .error e) :
      Attaches s c (.failed e) ((s.setFd c.fd).setDmabuf .err)
  | dev {b} (hcopy : c.copyFromUser = true) (hget : c.dmaBufGet = .ok b)
    (hdev : c.kzalloc = false) :
      Attaches s c (.failed .enomem) (((s.setFd c.fd).setDev .null).setDmabuf .null)
  | attach {b e} (hcopy : c.copyFromUser = true) (hget : c.dmaBufGet = .ok b)
    (hdev : c.kzalloc = true)
      (hattach : c.dmaBufDynamicAttach = .error e) : Attaches s c (.failed e)
        ((((s.setFd c.fd).setAttachment .err).setDev .null).setDmabuf .null)
  | map {b u e} (hcopy : c.copyFromUser = true) (hget : c.dmaBufGet = .ok b)
    (hdev : c.kzalloc = true)
      (hattach : c.dmaBufDynamicAttach = .ok u) (hmap : c.dmaBufMapAttachment = .error e) :
      Attaches s c (.failed e)
        (((((s.setFd c.fd).setTable .err).setAttachment .null).setDev .null).setDmabuf .null)
  | done {b u e} (hcopy : c.copyFromUser = true) (hget : c.dmaBufGet = .ok b)
    (hdev : c.kzalloc = true)
      (hattach : c.dmaBufDynamicAttach = .ok u) (hmap : c.dmaBufMapAttachment = .ok e) :
      Attaches s c .ok ((((s.setFd c.fd).get b).allocDev.attach b).map e)

variable {s s' : Globals} {c : AttachCalls} {r : Result}

/-- Each label gives back what was acquired before the jump to it. -/
theorem failedDev_get (s : Globals) (b : Nat) (p : ErrPtr Unit) :
    ((s.get b).setDev p).failedDev = some ((s.setDev p).setDmabuf .null) := by
  simp [failedDev, dmaBufPut, Globals.get, setDev, setDmabuf]

theorem failedAttach_allocDev (s : Globals) (b : Nat) (p : ErrPtr Nat) :
    ((s.get b).allocDev.setAttachment p).failedAttach =
      some (((s.setAttachment p).setDev .null).setDmabuf .null) :=
  (s.setAttachment p).failedDev_get b .null

theorem failedAttachment_attach (s : Globals) (b : Nat) (p : ErrPtr SgEntry) :
    (((s.get b).allocDev.attach b).setTable p).failedAttachment =
      some ((((s.setTable p).setAttachment .null).setDev .null).setDmabuf .null) := by
  rw [← (s.setTable p).failedAttach_allocDev b .null]
  simp [failedAttachment, dmaBufDetach, Globals.get, allocDev, Globals.attach, setTable,
    setAttachment]

theorem importerAttachCmb_attaches (h : s.importerAttachCmb c = some (r, s')) :
    Attaches s c r s' := by
  obtain ⟨copy, fd, get, kz, att, map⟩ := c
  cases copy with
  | false =>
    cases h
    exact .copy rfl
  | true =>
    cases get with
    | error e =>
      cases h
      exact .get rfl rfl
    | ok b =>
      cases kz with
      | false =>
        have hpath : (((s.setFd fd).get b).setDev .null).failedDev.map _ = some (r, s') := h
        rw [failedDev_get] at hpath
        cases hpath
        exact .dev rfl rfl rfl
      | true =>
        cases att with
        | error e =>
          have hpath : (((s.setFd fd).get b).allocDev.setAttachment .err).failedAttach.map _ =
              some (r, s') := h
          rw [failedAttach_allocDev] at hpath
          cases hpath
          exact .attach rfl rfl rfl rfl
        | ok u =>
          cases map with
          | error e =>
            have hpath : ((((s.setFd fd).get b).allocDev.attach b).setTable
                .err).failedAttachment.map _ = some (r, s') := h
            rw [failedAttachment_attach] at hpath
            cases hpath
            exact .map rfl rfl rfl rfl rfl
          | ok e =>
            cases h
            exact .done rfl rfl rfl rfl rfl

/-! ## The whole module -/

/-- No error pointer, no dma-buf without a table, and one reference at most. -/
theorem Whole.pointers (h : s.Whole) : s.dmabuf ≠ .err ∧ s.attachment ≠ .err ∧ s.table ≠ .err ∧
    (s.dmabuf = .null ↔ s.table = .null) ∧ s.refs.length ≤ 1 := by
  rcases h with ⟨fd, rfl⟩ | ⟨fd, b, e, rfl⟩
  · simp [detached]
  · simp [attached]

theorem Whole.setFd (h : s.Whole) (fd : Int) : (s.setFd fd).Whole := by
  rcases h with ⟨fd', rfl⟩ | ⟨fd', b, e, rfl⟩
  · exact .inl ⟨fd, rfl⟩
  · exact .inr ⟨fd, b, e, rfl⟩

theorem setFd_eq_iff {fd : Int} : s.setFd fd = s ↔ fd = s.fd := by
  cases s
  simp [Globals.setFd]

/-- ATTACH keeps the module whole, and changes nothing where it fails, exactly if it is
careful. -/
theorem Attaches.whole_iff (h : Attaches s c r s') (hs : s.Whole) :
    s'.Whole ∧ (∀ e, r = .failed e → s' = s) ↔ s.Careful (.attach c) := by
  cases h with
  | copy hcopy => simp [hs.setFd, setFd_eq_iff, Careful, hcopy]
  | get hcopy hget =>
    refine iff_of_false (fun h => h.1.pointers.1 rfl) ?_
    simp [Careful, AttachCalls.Succeed, hcopy, hget]
  | dev hcopy hget hdev =>
    rcases hs with ⟨fd, rfl⟩ | ⟨fd, b, e, rfl⟩
    · have hsame : (((detached fd).setFd c.fd).setDev .null).setDmabuf .null = detached c.fd := rfl
      rw [hsame]
      simp [Careful, AttachCalls.Succeed, hcopy, hget, hdev, Whole, detached]
    · refine iff_of_false (fun h => ?_) ?_
      · have := h.1.pointers.2.2.2.1.mp rfl
        cases this
      · simp [Careful, hcopy, attached]
  | attach hcopy hget hdev hattach =>
    refine iff_of_false (fun h => h.1.pointers.2.1 rfl) ?_
    simp [Careful, AttachCalls.Succeed, hcopy, hget, hdev, hattach]
  | map hcopy hget hdev hattach hmap =>
    refine iff_of_false (fun h => h.1.pointers.2.2.1 rfl) ?_
    simp [Careful, AttachCalls.Succeed, hcopy, hget, hdev, hattach, hmap]
  | @done b u e hcopy hget hdev hattach hmap =>
    rcases hs with ⟨fd, rfl⟩ | ⟨fd, b', e', rfl⟩
    · refine iff_of_true ⟨.inr ⟨c.fd, b, e, rfl⟩, by simp⟩ ?_
      simp [Careful, AttachCalls.Succeed, hcopy, hget, hdev, hattach, hmap, detached]
    · refine iff_of_false (fun h => ?_) ?_
      · have := h.1.pointers.2.2.2.2
        simp [Globals.map, Globals.attach, Globals.get, allocDev, Globals.setFd, attached] at this
      · simp [Careful, hcopy, attached]

/-- DETACH of a whole module leaves it detached. -/
theorem Whole.detach (h : s.Whole) (hd : s.importerDetachCmb = some (r, s')) :
    ∃ fd, s' = detached fd := by
  rcases h with ⟨fd, rfl⟩ | ⟨fd, b, e, rfl⟩
  · cases hd
    exact ⟨fd, rfl⟩
  · have hpath : (attached fd b e).importerDetachCmb = some (.ok, detached (-1)) := by
      simp [importerDetachCmb, dmaBufUnmapAttachment, dmaBufDetach, freeDev, dmaBufPut, attached,
        detached, setTable, setAttachment, setDev, setDmabuf, Globals.setFd]
    rw [hpath] at hd
    cases hd
    exact ⟨-1, rfl⟩

/-- GET reads. -/
theorem importerGetCmb_same {copyToUser : Bool} (h : s.importerGetCmb copyToUser = some (r, s')) :
    s' = s := by
  unfold importerGetCmb at h
  split at h
  · cases h
    rfl
  · cases h
  · split at h <;> cases h <;> rfl

theorem allOrNothing_iff {l : Ioctl} (hcall : s.importerIoctl l = some (r, s')) : s.AllOrNothing l ↔
    (∀ c, l = .attach c → ∀ e, r = .failed e → s' = s) ∧
      (l = .detach → ∃ fd, s' = detached fd) := by
  constructor
  · intro h
    exact h r s' hcall
  · intro h r₁ s₁ hcall₁
    rw [hcall] at hcall₁
    cases hcall₁
    exact h

theorem Whole.step_iff (h : s.Whole) {l : Ioctl} (hstep : importer.step s l = some s') :
    s'.Whole ∧ s.AllOrNothing l ↔ s.Careful l := by
  obtain ⟨⟨r, t⟩, hcall, rfl⟩ := Option.map_eq_some_iff.mp hstep
  rw [allOrNothing_iff hcall]
  cases l with
  | attach c =>
    rw [← (importerAttachCmb_attaches hcall).whole_iff h]
    simp
  | detach =>
    obtain ⟨fd, rfl⟩ := h.detach hcall
    exact iff_of_true ⟨.inl ⟨fd, rfl⟩, by simp, fun _ => ⟨fd, rfl⟩⟩ trivial
  | get copyToUser =>
    obtain rfl := importerGetCmb_same hcall
    exact iff_of_true ⟨h, by simp, by simp⟩ trivial

end Globals

open Globals

/-- Over any ioctls, each call in them failing or not: the module is fully detached or fully
attached in every state between ioctls, a failed ATTACH leaves the state as it was and a DETACH
leaves nothing held, exactly if every ATTACH is careful. -/
theorem whole_iff_careful {tr : List (Globals × Ioctl)} {s : Globals}
    (hrun : importer.Run (.detached (-1)) tr s) :
    Throughout Whole tr s ∧ Meets AllOrNothing tr ↔ Meets Careful tr :=
  hrun.all_steps_iff (B := fun _ => True) (fun _ _ => True) trivial (.inl ⟨-1, rfl⟩)
    (fun _ _ _ _ _ _ => trivial) (fun _ _ _ _ hs _ hstep => hs.step_iff hstep) (fun _ _ => trivial)

/-- Calls that all succeed, on the descriptor 7. -/
def AttachCalls.sample : AttachCalls := ⟨true, 7, .ok 0, true, .ok (), .ok ⟨8192, 4096⟩⟩

/-- An ATTACH whose `kzalloc` fails, then ATTACH, GET and DETACH. -/
def sampleRun : List (Globals × Ioctl) :=
  [(.detached (-1), .attach ⟨true, -1, .ok 0, false, .ok (), .ok ⟨8192, 4096⟩⟩),
    (.detached (-1), .attach .sample), (.attached 7 0 ⟨8192, 4096⟩, .get true),
    (.attached 7 0 ⟨8192, 4096⟩, .detach)]

theorem whole_through_attach : importer.Run (.detached (-1)) sampleRun (.detached (-1)) ∧
    Throughout Whole sampleRun (.detached (-1)) ∧ Meets AllOrNothing sampleRun := by
  have hrun : importer.Run (.detached (-1)) sampleRun (.detached (-1)) :=
    run_of_trace (show importer.trace (.detached (-1)) (sampleRun.map Prod.snd) = _ from rfl)
  refine ⟨hrun, (whole_iff_careful hrun).mpr ?_⟩
  intro p hp
  simp only [sampleRun, List.mem_cons, List.not_mem_nil, or_false] at hp
  rcases hp with rfl | rfl | rfl | rfl
  · exact .inr ⟨rfl, rfl, .inr ⟨⟨0, rfl⟩, rfl, rfl⟩⟩
  · exact .inr ⟨rfl, rfl, .inl ⟨⟨0, rfl⟩, rfl, ⟨(), rfl⟩, ⟨_, rfl⟩⟩⟩
  · trivial
  · trivial

/-- An ATTACH of a descriptor that is no dma-buf leaves its error pointer; two ATTACHes leave two
references. -/
theorem attach_not_whole :
    (∃ tr s, importer.Run (.detached (-1)) tr s ∧ s.dmabuf = .err ∧ ¬ s.Whole) ∧
      ∃ tr s, importer.Run (.detached (-1)) tr s ∧ s.refs = [0, 0] ∧ ¬ s.Whole := by
  refine ⟨⟨_, _, run_of_trace (show importer.trace (.detached (-1))
      [.attach ⟨true, 7, .error .einval, true, .ok (), .ok ⟨8192, 4096⟩⟩] = _ from rfl), rfl,
      fun h => h.pointers.1 rfl⟩,
    _, _, run_of_trace (show importer.trace (.detached (-1)) [.attach .sample, .attach .sample] = _
      from rfl), rfl, fun h => absurd h.pointers.2.2.2.2 (by decide)⟩

end LogDirect.Importer
