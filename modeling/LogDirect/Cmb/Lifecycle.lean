import LogDirect.Lib.TSys

/-!
# The life of an `nvme_cmb_object`

Two counts refer to each other. The dma-buf has the object as its `priv` and puts it
when its own last reference goes; the object puts its dma-buf when it is released.
The reference `dma_buf_export` makes is the object's until `dma_buf_fd` gives it to
the descriptor, and the object takes none of its own. So the put in
`nvme_cmb_object_release` is one too many after every successful allocation, and the
common error label runs it on an error pointer, or on a dma-buf that still has the
object.

* `nvmeCmbObjectPut` — the two puts and the callback between them;
* `Lifecycle.step` — the allocation, VMAs and the descriptor;
* `Live` — the counts while a reference is left.
-/

namespace LogDirect.Cmb

open Lib TSys

/-- What `obj->dma_buf` holds: null, `ERR_PTR`, or the dma-buf. -/
inductive BufPtr
  | null
  | err
  | buf
  deriving DecidableEq

inductive Event
  /-- `nvme_cmb_object_release` runs; whether the dma-buf still has the object, and how many
  VMAs do. -/
  | release (priv : Bool) (vmas : Nat)
  /-- The object calls `dma_buf_put`; whether the pointer is a dma-buf with a reference left,
  and whether the object holds one. -/
  | dmaBufPut (valid held : Bool)
  deriving DecidableEq

namespace Event

/-- Released with no reference left; put where it is valid and held. -/
def Ok (e : Event) : Prop :=
  e = .release false 0 ∨ e = .dmaBufPut true true

instance (e : Event) : Decidable e.Ok := inferInstanceAs (Decidable (_ ∨ _))

def isRelease : Event → Bool
  | .release .. => true
  | .dmaBufPut .. => false

end Event

/-- How far `nvme_pci_alloc_user_cmb` got. -/
inductive Alloc
  | before
  /-- `kzalloc` failed -/
  | noObject
  | object
  deriving DecidableEq

/-- An object, its dma-buf, and who refers to them. `refs` counts the references to the
dma-buf, `priv` says that it has yet to call its release callback, and `held` that the
reference of `dma_buf_export` is still the object's. -/
structure Lifecycle where
  alloc : Alloc
  kref : Nat
  dmaBuf : BufPtr
  refs : Nat
  priv : Bool
  held : Bool
  fd : Bool
  vmas : Nat
  log : List Event
  deriving DecidableEq

namespace Lifecycle

def setKref (s : Lifecycle) (k : Nat) : Lifecycle := { s with kref := k }

def setRefs (s : Lifecycle) (k : Nat) : Lifecycle := { s with refs := k }

def setVmas (s : Lifecycle) (k : Nat) : Lifecycle := { s with vmas := k }

def record (s : Lifecycle) (e : Event) : Lifecycle := { s with log := s.log ++ [e] }

/-- `nvme_cmb_dmabuf_release`, the callback: the dma-buf gives its object up. -/
def nvmeCmbDmabufRelease (put : Lifecycle → Lifecycle) (s : Lifecycle) : Lifecycle :=
  put { s with priv := false }

/-- A reference to the dma-buf goes; with the last one the callback runs. -/
def fput (put : Lifecycle → Lifecycle) (s : Lifecycle) : Lifecycle :=
  if s.refs = 1 then nvmeCmbDmabufRelease put (s.setRefs 0) else s.setRefs (s.refs - 1)

/-- `dma_buf_put`, called for the object. -/
def dmaBufPut (put : Lifecycle → Lifecycle) (s : Lifecycle) : Lifecycle :=
  match s.dmaBuf with
  | .null => s
  | .err => s.record (.dmaBufPut false s.held)
  | .buf => if s.refs = 0 then s.record (.dmaBufPut false s.held)
      else fput put (s.record (.dmaBufPut true s.held))

/-- `nvme_cmb_object_release` -/
def nvmeCmbObjectRelease (put : Lifecycle → Lifecycle) (s : Lifecycle) : Lifecycle :=
  dmaBufPut put (s.record (.release s.priv s.vmas))

/-- `nvme_cmb_object_put`, with the count it finds. A `kref` that is zero stays so and
releases nothing. -/
def krefPut : Nat → Lifecycle → Lifecycle
  | 0, s => s
  | k + 1, s => if k = 0 then nvmeCmbObjectRelease (krefPut k) (s.setKref k) else s.setKref k

def nvmeCmbObjectPut (s : Lifecycle) : Lifecycle := krefPut s.kref s

/-- `nvme_cmb_object_get` -/
def nvmeCmbObjectGet (s : Lifecycle) : Lifecycle := s.setKref (s.kref + 1)

/-- A new object whose `dma_buf_export` failed. -/
def notExported : Lifecycle := ⟨.object, 1, .err, 0, false, false, false, 0, []⟩

/-- A new object and its dma-buf. -/
def exported : Lifecycle := ⟨.object, 1, .buf, 1, true, true, false, 0, []⟩

/-- `dma_buf_fd` has given the reference to a descriptor. -/
def installed : Lifecycle := ⟨.object, 1, .buf, 1, true, false, true, 0, []⟩

/-- `nvme_pci_alloc_user_cmb`, by what its three calls return. -/
def nvmePciAllocUserCmb (s : Lifecycle) (kzalloc dmaBufExport dmaBufFd : Bool) : Lifecycle :=
  if kzalloc = false then { s with alloc := .noObject }
  else if dmaBufExport = false then nvmeCmbObjectPut notExported
  else if dmaBufFd = false then nvmeCmbObjectPut exported
  else installed

/-- One more VMA: the kernel takes a reference to the dma-buf, and `nvme_cmb_dmabuf_mmap` or
`nvme_cmb_vm_open` one to the object. -/
def addVma (s : Lifecycle) : Lifecycle :=
  (((s.setRefs (s.refs + 1)).nvmeCmbObjectGet).setVmas (s.vmas + 1))

/-- `nvme_cmb_vm_close`, after which the kernel drops the VMA's reference to the dma-buf. -/
def nvmeCmbVmClose (s : Lifecycle) : Lifecycle :=
  fput nvmeCmbObjectPut (nvmeCmbObjectPut (s.setVmas (s.vmas - 1)))

def closeFd (s : Lifecycle) : Lifecycle := fput nvmeCmbObjectPut { s with fd := false }

end Lifecycle

inductive LifeOp
  | alloc (kzalloc dmaBufExport dmaBufFd : Bool)
  | mmap
  | vmOpen
  | vmClose
  | close
  deriving DecidableEq

namespace Lifecycle

def step (s : Lifecycle) : LifeOp → Option Lifecycle
  | .alloc kzalloc dmaBufExport dmaBufFd =>
      if s.alloc = .before then some (s.nvmePciAllocUserCmb kzalloc dmaBufExport dmaBufFd) else none
  | .mmap => if s.fd then some s.addVma else none
  | .vmOpen => if s.vmas ≠ 0 then some s.addVma else none
  | .vmClose => if s.vmas ≠ 0 then some s.nvmeCmbVmClose else none
  | .close => if s.fd then some s.closeFd else none

/-- Before the allocation. -/
def start : Lifecycle := ⟨.before, 0, .null, 0, false, false, false, 0, []⟩

end Lifecycle

/-- One allocation, then any VMAs and the end of the descriptor. -/
def lifecycle : TSys Lifecycle LifeOp where
  init s := s = .start
  step := Lifecycle.step

namespace Lifecycle

/-- How often the object was released. -/
def released (s : Lifecycle) : Nat := s.log.countP Event.isRelease

/-- The object was made, and the descriptor and all VMAs are gone. -/
def Over (s : Lifecycle) : Prop := s.alloc = .object ∧ s.fd = false ∧ s.vmas = 0

instance (s : Lifecycle) : Decidable s.Over := inferInstanceAs (Decidable (_ ∧ _ ∧ _))

/-- Every release and put was in order, and the object is released once, in the end. -/
def Balanced (s : Lifecycle) : Prop :=
  (∀ e ∈ s.log, e.Ok) ∧ s.released ≤ 1 ∧ (s.Over → s.released = 1)

instance (s : Lifecycle) : Decidable s.Balanced := inferInstanceAs (Decidable (_ ∧ _ ∧ _))

/-- There is no object, or it gets its descriptor; and the dma-buf's last reference is
never dropped. -/
def KeepsReference (s : Lifecycle) : LifeOp → Prop
  | .alloc kzalloc dmaBufExport dmaBufFd =>
      kzalloc = false ∨ dmaBufExport = true ∧ dmaBufFd = true
  | .vmClose | .close => s.refs ≠ 1
  | .mmap | .vmOpen => True

/-- The object has a reference from the dma-buf and one from each VMA, the dma-buf one from the
descriptor, one from each VMA and `k` that are about to be dropped. Nothing was released. -/
structure Counts (k : Nat) (s : Lifecycle) : Prop where
  alloc : s.alloc = .object
  dmaBuf : s.dmaBuf = .buf
  kref : s.kref = s.vmas + 1
  refs : s.refs = s.vmas + s.fd.toNat + k
  log : s.log = []

/-- The dma-buf has a reference. -/
def Live (s : Lifecycle) : Prop := s.Counts 0 ∧ s.refs ≠ 0

/-- Nothing is left that could take a step. -/
def Done (s : Lifecycle) : Prop := s.alloc ≠ .before ∧ s.fd = false ∧ s.vmas = 0

variable {s s' : Lifecycle}

theorem Live.balanced (h : s.Live) : s.Balanced := by
  obtain ⟨hcounts, hpos⟩ := h
  refine ⟨by simp [hcounts.log], by simp [released, hcounts.log], ?_⟩
  rintro ⟨-, hfd, hvmas⟩
  have hrefs := hcounts.refs
  rw [hfd, hvmas] at hrefs
  exact absurd hrefs hpos

/-- The last reference to the dma-buf: the object, released by the callback, puts a dma-buf
that has none left. -/
theorem fput_last (hbuf : s.dmaBuf = .buf) (hkref : s.kref = 1) (hrefs : s.refs = 1) :
    fput nvmeCmbObjectPut s = ⟨s.alloc, 0, .buf, 0, false, s.held, s.fd, s.vmas,
      s.log ++ [.release false s.vmas] ++ [.dmaBufPut false s.held]⟩ := by
  cases s
  subst hbuf hkref hrefs
  rfl

theorem fput_more (hrefs : s.refs ≠ 1) : fput nvmeCmbObjectPut s = s.setRefs (s.refs - 1) :=
  if_neg hrefs

/-- That put is not in order. -/
theorem not_balanced_of_last (hbuf : s.dmaBuf = .buf) (hkref : s.kref = 1) (hrefs : s.refs = 1) :
    ¬ (fput nvmeCmbObjectPut s).Balanced := by
  rw [fput_last hbuf hkref hrefs]
  rintro ⟨hok, -⟩
  have hput := hok (.dmaBufPut false s.held) (by simp)
  simp [Event.Ok] at hput

/-! ## One step -/

/-- Everything is over, and out of balance. -/
def Broken (s : Lifecycle) : Prop := s.Done ∧ ¬ s.Balanced

/-- Dropping one of the references that are left. -/
theorem Counts.fput_live (h : s.Counts 1) (hmore : s.refs ≠ 1) :
    (fput nvmeCmbObjectPut s).Live := by
  have hrefs := h.refs
  rw [fput_more hmore]
  refine ⟨⟨h.alloc, h.dmaBuf, h.kref, ?_, h.log⟩, ?_⟩
  · show s.refs - 1 = s.vmas + s.fd.toNat + 0
    omega
  · show s.refs - 1 ≠ 0
    omega

/-- Dropping the last. -/
theorem Counts.fput_broken (h : s.Counts 1) (hlast : s.refs = 1) :
    (fput nvmeCmbObjectPut s).Broken := by
  have hrefs := h.refs
  have hvmas : s.vmas = 0 := by omega
  have hfd : s.fd = false := by
    rw [← Bool.toNat_eq_zero]
    omega
  have hkref : s.kref = 1 := by rw [h.kref, hvmas]
  refine ⟨?_, not_balanced_of_last h.dmaBuf hkref hlast⟩
  rw [fput_last h.dmaBuf hkref hlast]
  exact ⟨by rw [h.alloc]; decide, hfd, hvmas⟩

theorem Live.addVma (h : s.Live) : s.addVma.Live := by
  obtain ⟨h, -⟩ := h
  refine ⟨⟨h.alloc, h.dmaBuf, congrArg (· + 1) h.kref, ?_, h.log⟩, Nat.succ_ne_zero _⟩
  show s.refs + 1 = s.vmas + 1 + s.fd.toNat + 0
  rw [h.refs]
  omega

/-- The descriptor's reference is about to be dropped. -/
theorem Live.counts_closeFd (h : s.Live) (hfd : s.fd = true) :
    Counts 1 { s with fd := false } := by
  obtain ⟨h, -⟩ := h
  refine ⟨h.alloc, h.dmaBuf, h.kref, ?_, h.log⟩
  rw [h.refs, hfd]
  rfl

/-- A VMA's reference to the object is never the last, as the dma-buf has one. -/
theorem Live.put_vma (h : s.Live) (hvmas : s.vmas ≠ 0) :
    nvmeCmbObjectPut (s.setVmas (s.vmas - 1)) = (s.setVmas (s.vmas - 1)).setKref s.vmas := by
  show krefPut s.kref _ = _
  rw [h.1.kref]
  exact if_neg hvmas

theorem Live.counts_vmClose (h : s.Live) (hvmas : s.vmas ≠ 0) :
    Counts 1 ((s.setVmas (s.vmas - 1)).setKref s.vmas) := by
  obtain ⟨h, -⟩ := h
  have hrefs := h.refs
  refine ⟨h.alloc, h.dmaBuf, ?_, ?_, h.log⟩
  · show s.vmas = s.vmas - 1 + 1
    omega
  · show s.refs = s.vmas - 1 + s.fd.toNat + 1
    omega

instance (s : Lifecycle) : Decidable s.Done := inferInstanceAs (Decidable (_ ∧ _ ∧ _))

/-- The allocation: no object, one with a descriptor, or one of the error paths. -/
theorem alloc_step (kzalloc dmaBufExport dmaBufFd : Bool) :
    ((start.nvmePciAllocUserCmb kzalloc dmaBufExport dmaBufFd).Live ∨
      (start.nvmePciAllocUserCmb kzalloc dmaBufExport dmaBufFd).Done) ∧
    ((start.nvmePciAllocUserCmb kzalloc dmaBufExport dmaBufFd).Balanced ↔
      start.KeepsReference (.alloc kzalloc dmaBufExport dmaBufFd)) := by
  cases kzalloc with
  | false => exact ⟨.inr (by decide +revert), iff_of_true (by decide +revert) (.inl rfl)⟩
  | true =>
    cases dmaBufExport with
    -- the put is on an error pointer
    | false =>
      exact ⟨.inr (by decide +revert), iff_of_false (by decide +revert) (by simp [KeepsReference])⟩
    | true =>
      cases dmaBufFd with
      -- the dma-buf still has the object
      | false => exact ⟨.inr (by decide), iff_of_false (by decide) (by simp [KeepsReference])⟩
      | true =>
        have hlive : installed.Live := ⟨⟨rfl, rfl, rfl, rfl, rfl⟩, Nat.one_ne_zero⟩
        exact ⟨.inl hlive, iff_of_true hlive.balanced (.inr ⟨rfl, rfl⟩)⟩

/-- Out of a live state, a reference that is dropped keeps the balance unless it is the
last. -/
theorem Counts.fput_iff (h : s.Counts 1) :
    ((fput nvmeCmbObjectPut s).Live ∨ (fput nvmeCmbObjectPut s).Done) ∧
      ((fput nvmeCmbObjectPut s).Balanced ↔ s.refs ≠ 1) := by
  by_cases hlast : s.refs = 1
  · obtain ⟨hdone, hbal⟩ := h.fput_broken hlast
    exact ⟨.inr hdone, iff_of_false hbal (not_not_intro hlast)⟩
  · have hlive := h.fput_live hlast
    exact ⟨.inl hlive, iff_of_true hlive.balanced hlast⟩

theorem Live.step (h : s.Live) {l : LifeOp} (hstep : lifecycle.step s l = some s') :
    (s'.Live ∨ s'.Done) ∧ (s'.Balanced ↔ s.KeepsReference l) := by
  cases l with
  | alloc kzalloc dmaBufExport dmaBufFd =>
    obtain ⟨hbefore, -⟩ := Option.ite_none_right_eq_some.mp hstep
    rw [h.1.alloc] at hbefore
    cases hbefore
  | mmap =>
    obtain ⟨-, heq⟩ := Option.ite_none_right_eq_some.mp hstep
    cases heq
    exact ⟨.inl h.addVma, iff_of_true h.addVma.balanced trivial⟩
  | vmOpen =>
    obtain ⟨-, heq⟩ := Option.ite_none_right_eq_some.mp hstep
    cases heq
    exact ⟨.inl h.addVma, iff_of_true h.addVma.balanced trivial⟩
  | vmClose =>
    obtain ⟨hvmas, heq⟩ := Option.ite_none_right_eq_some.mp hstep
    cases heq
    unfold nvmeCmbVmClose
    rw [h.put_vma hvmas]
    exact (h.counts_vmClose hvmas).fput_iff
  | close =>
    obtain ⟨hfd, heq⟩ := Option.ite_none_right_eq_some.mp hstep
    cases heq
    exact (h.counts_closeFd hfd).fput_iff

theorem start_step {l : LifeOp} (hstep : lifecycle.step start l = some s') :
    (s'.Live ∨ s'.Done) ∧ (s'.Balanced ↔ start.KeepsReference l) := by
  cases l with
  | alloc kzalloc dmaBufExport dmaBufFd =>
    cases hstep
    exact alloc_step kzalloc dmaBufExport dmaBufFd
  | mmap | vmOpen | vmClose | close => cases hstep

/-- Where nothing is left there is no step. -/
theorem Done.no_step (h : s.Done) {l : LifeOp} : lifecycle.step s l = none := by
  obtain ⟨halloc, hfd, hvmas⟩ := h
  cases l <;> simp [lifecycle, Lifecycle.step, halloc, hfd, hvmas]

end Lifecycle

open Lifecycle

/-- Over every run of the allocation and any VMAs and descriptor after it: the object is released
once, with no reference left, and puts its dma-buf only where that is valid and its own, exactly
if the allocation fails before it has an object or succeeds, and the dma-buf's last reference is
never dropped. -/
theorem balanced_iff_keepsReference {tr : List (Lifecycle × LifeOp)} {s : Lifecycle}
    (hrun : lifecycle.Run .start tr s) : Throughout Balanced tr s ↔ Meets KeepsReference tr := by
  refine hrun.all_iff (B := fun s => s = .start ∨ s.Live ∨ s.Done) (fun _ _ => True) (.inl rfl)
    (by decide) ?_ ?_ (fun _ _ => trivial)
  · rintro s l s' (rfl | hlive | hdone) - hstep
    · exact .inr (start_step hstep).1
    · exact .inr (hlive.step hstep).1
    · rw [hdone.no_step] at hstep
      cases hstep
  · rintro s l s' (rfl | hlive | hdone) - - hstep
    · exact (start_step hstep).2
    · exact (hlive.step hstep).2
    · rw [hdone.no_step] at hstep
      cases hstep

/-- With a VMA that outlives the descriptor. -/
theorem balanced_while_mapped : ∃ tr s, lifecycle.Run .start tr s ∧
    tr.map (fun p => (p.2, p.1.refs)) =
      [(.alloc true true true, 0), (.mmap, 1), (.vmOpen, 2), (.close, 3), (.vmClose, 2)] ∧
    Throughout Balanced tr s := by
  obtain ⟨tr, s, htr, hops⟩ : ∃ tr s, lifecycle.trace .start
        [.alloc true true true, .mmap, .vmOpen, .close, .vmClose] = some (tr, s) ∧
      tr.map (fun p => (p.2, p.1.refs)) =
        [(.alloc true true true, 0), (.mmap, 1), (.vmOpen, 2), (.close, 3), (.vmClose, 2)] :=
    ⟨_, _, rfl, rfl⟩
  have hrun := run_of_trace htr
  refine ⟨tr, s, hrun, hops, (balanced_iff_keepsReference hrun).mpr ?_⟩
  rintro ⟨s, l⟩ hp
  have hmem := List.mem_map_of_mem (f := fun p => (p.2, p.1.refs)) hp
  rw [hops] at hmem
  cases l with
  | alloc => simp_all [KeepsReference]
  | mmap | vmOpen => trivial
  | vmClose | close => simp_all [KeepsReference]

/-- All three ways: on success the end of the descriptor puts a dma-buf without a reference, a
failed export an error pointer, and a failed `dma_buf_fd` releases an object the dma-buf has. -/
theorem release_not_balanced :
    (∃ tr s, lifecycle.Run .start tr s ∧ tr.map Prod.snd = [.alloc true true true, .close] ∧
      s.log = [.release false 0, .dmaBufPut false false] ∧ ¬ s.Balanced) ∧
    (∃ tr s, lifecycle.Run .start tr s ∧ tr.map Prod.snd = [.alloc true false true] ∧
      s.log = [.release false 0, .dmaBufPut false false] ∧ ¬ s.Balanced) ∧
    ∃ tr s, lifecycle.Run .start tr s ∧ tr.map Prod.snd = [.alloc true true false] ∧
      s.log = [.release true 0, .dmaBufPut true true] ∧ ¬ s.Balanced := by
  refine ⟨⟨_, _, run_of_trace (show lifecycle.trace .start [.alloc true true true, .close] =
      _ from rfl), rfl, rfl, by decide⟩,
    ⟨_, _, run_of_trace (show lifecycle.trace .start [.alloc true false true] = _ from rfl),
      rfl, rfl, by decide⟩,
    _, _, run_of_trace (show lifecycle.trace .start [.alloc true true false] = _ from rfl),
      rfl, rfl, by decide⟩

end LogDirect.Cmb
