import LogDirect.Lib.Arena
import LogDirect.Lib.Pool
import LogDirect.Lib.TSys
import Mathlib.Logic.Function.Basic

/-!
# The controller memory buffer as dma-bufs

Every `nvme_cmb_object` is the private data of one dma-buf. The first device that
attaches to the dma-buf allocates a region of the controller memory buffer for the
object, the last one that detaches frees it. `map_dma_buf` gives an attachment a
scatter list with the region's address, which the attachment then keeps. A process
maps the dma-buf with `mmap`; the first page fault puts the whole range of the VMA
in the page table.

* `GenPool` — the `gen_pool` of the device, over `Lib.Arena`;
* `NvmeDev.call` — one call of the driver;
* `Moves` — what a call can do, said once;
* `Wf` — the accounts of objects, attachments and pool, kept by every call.
-/

namespace LogDirect.Cmb

open Lib

/-- `PAGE_SIZE` -/
def pageSize : Nat := 4096

/-- The size in whole pages; the pool is created with `PAGE_SHIFT` as its order. -/
def pageAlign (size : Nat) : Nat := (size + pageSize - 1) / pageSize * pageSize

theorem le_pageAlign (size : Nat) : size ≤ pageAlign size := by
  unfold pageAlign pageSize
  omega

inductive Errno
  | enomem
  | einval
  | ebusy
  | eagain
  | erestartsys
  | eintr
  | efault
  deriving DecidableEq

/-! ## The pool -/

variable {n : Nat}

/-- `gen_pool`: the buffer by its bus addresses, and where `ioremap_wc` put it. A region
belongs to one of the `n` objects, or to a submission queue. -/
structure GenPool (n : Nat) where
  arena : Arena (Option (Fin n)) pageSize
  virt : Nat
  virt_pos : 0 < virt

namespace GenPool

/-- `gen_pool_create` and `gen_pool_add_virt`, as `nvme_map_cmb` calls them. -/
def create (range : Extent) (virt : Nat) (h : 0 < virt) : GenPool n := ⟨.empty range, virt, h⟩

/-- The kernel address of a bus address. -/
def address (p : GenPool n) (dma : Nat) : Nat := p.virt + (dma - p.arena.range.base)

theorem address_ne_zero (p : GenPool n) (dma : Nat) : p.address dma ≠ 0 := by
  have := p.virt_pos
  unfold address
  omega

/-- The pool with one more region of the object. -/
def grant (p : GenPool n) (o : Fin n) (e : Extent) (h : p.arena.Fits e) : GenPool n where
  arena := p.arena.alloc (some o) e h
  virt := p.virt
  virt_pos := p.virt_pos

/-- `gen_pool_dma_alloc`, which is free to choose any place that fits. -/
def dmaAlloc (p : GenPool n) (o : Fin n) (size base : Nat) : Option (Nat × Nat × GenPool n) :=
  if h : p.arena.Fits ⟨base, pageAlign size⟩ then
    some (p.address base, base, p.grant o ⟨base, pageAlign size⟩ h)
  else
    none

/-- `gen_pool_free` -/
def free (p : GenPool n) (addr : Nat) : GenPool n where
  arena := p.arena.free (p.arena.range.base + (addr - p.virt))
  virt := p.virt
  virt_pos := p.virt_pos

end GenPool

/-- `nvme_alloc_cmb`; `base` is the place the pool finds. -/
def nvmeAllocCmb (pool : Option (GenPool n)) (o : Fin n) (size : Nat) (base : Option Nat) :
    Option (Nat × Nat × GenPool n) :=
  pool.bind fun p => base.bind fun b => p.dmaAlloc o size b

/-- `nvme_free_cmb` -/
def nvmeFreeCmb (pool : Option (GenPool n)) (addr : Nat) : Option (GenPool n) :=
  pool.map fun p => p.free addr

theorem nvmeFreeCmb_some (p : GenPool n) (addr : Nat) :
    nvmeFreeCmb (some p) addr = some (p.free addr) := rfl

/-- The regions of the pool that belong to the object. -/
def regions (pool : Option (GenPool n)) (o : Fin n) : List Extent :=
  pool.elim [] fun p => p.arena.owned (some o)

/-! ## Objects, attachments and VMAs -/

/-- An entry of a `sg_table`. -/
structure SgEntry where
  dmaAddress : Nat
  dmaLen : Nat
  deriving DecidableEq

/-- `nvme_cmb_object`. `size` is that of its dma-buf, and 0 is the null pointer. -/
structure CmbObject where
  size : Nat
  addr : Nat
  dmaAddr : Nat
  attachments : Int

namespace CmbObject

/-- `obj_size` -/
def objSize (obj : CmbObject) : Nat := obj.size

def setAddr (obj : CmbObject) (addr : Nat) : CmbObject := { obj with addr := addr }

def setDmaAddr (obj : CmbObject) (dma : Nat) : CmbObject := { obj with dmaAddr := dma }

def setAttachments (obj : CmbObject) (k : Int) : CmbObject := { obj with attachments := k }

/-- The scatter list `nvme_cmb_map_dma_buf` fills in. -/
def sgTable (obj : CmbObject) : List SgEntry := [⟨obj.dmaAddr, obj.objSize⟩]

/-- As `kzalloc` leaves it. -/
def Fresh (obj : CmbObject) : Prop := obj.addr = 0 ∧ obj.dmaAddr = 0 ∧ obj.attachments = 0

end CmbObject

/-- `enum dma_data_direction` -/
inductive Direction
  | bidirectional
  | toDevice
  | fromDevice
  | none
  deriving DecidableEq

/-- `nvme_cmb_attachment` -/
structure CmbAttachment where
  sgt : List SgEntry
  dir : Direction
  deriving DecidableEq

/-- `dma_buf_attachment`: the dma-buf by its object, and `priv`. -/
structure DmaBufAttachment (n : Nat) where
  obj : Fin n
  priv : Option CmbAttachment
  deriving DecidableEq

/-- A VMA of an object's dma-buf. `mapped` is the first page frame once the range is in
the page table. -/
structure Vma (n : Nat) where
  obj : Fin n
  pages : Nat
  cow : Bool
  mapped : Option Nat
  deriving DecidableEq

/-- `vm_fault_t` -/
inductive VmFault
  | nopage
  | oom
  | sigbus
  deriving DecidableEq

/-- `nvme_dev` with the objects that share its pool, every attachment that was made to
them and every VMA there is. -/
structure NvmeDev (n : Nat) where
  cmbPool : Option (GenPool n)
  objects : Fin n → CmbObject
  attachments : List (DmaBufAttachment n)
  vmas : List (Vma n)

inductive Result
  | ok
  | failed (e : Errno)
  | sgTable (sgt : List SgEntry)
  | fault (f : VmFault)
  deriving DecidableEq

/-- A call, with the outcome of the allocations and of the remap it makes. -/
inductive Op (n : Nat)
  | attach (o : Fin n) (kzalloc : Bool) (base : Option Nat)
  | detach (i : Nat)
  | mapDmaBuf (i : Nat) (dir : Direction) (sgAlloc : Bool)
  | mmap (o : Fin n) (pages : Nat) (cow : Bool)
  | fault (i : Nat) (remap : Option Errno)
  | munmap (i : Nat)

namespace NvmeDev

def setObject (s : NvmeDev n) (o : Fin n) (obj : CmbObject) : NvmeDev n :=
  { s with objects := Function.update s.objects o obj }

def setPool (s : NvmeDev n) (pool : Option (GenPool n)) : NvmeDev n := { s with cmbPool := pool }

def setAttachments (s : NvmeDev n) (as : List (DmaBufAttachment n)) : NvmeDev n :=
  { s with attachments := as }

def setVmas (s : NvmeDev n) (vs : List (Vma n)) : NvmeDev n := { s with vmas := vs }

/-- `++obj->attachments`, and the new attachment with `dir` still `DMA_NONE` -/
def addAttachment (s : NvmeDev n) (o : Fin n) : NvmeDev n :=
  (s.setObject o ((s.objects o).setAttachments ((s.objects o).attachments + 1))).setAttachments
    (s.attachments ++ [⟨o, some ⟨[], .none⟩⟩])

/-- What `nvme_alloc_cmb` returned is the object's. -/
def allocated (s : NvmeDev n) (o : Fin n) (addr dma : Nat) (pool : GenPool n) : NvmeDev n :=
  (s.setPool (some pool)).setObject o (((s.objects o).setAddr addr).setDmaAddr dma)

/-- `nvme_cmb_map_attach` -/
def nvmeCmbMapAttach (s : NvmeDev n) (o : Fin n) (kzalloc : Bool) (base : Option Nat) :
    Result × NvmeDev n :=
  if kzalloc = false then
    (.failed .enomem, s)
  else if (s.objects o).attachments = 0 then
    match nvmeAllocCmb s.cmbPool o (s.objects o).objSize base with
    | none => (.failed .enomem, s.setObject o ((s.objects o).setAddr 0))
    | some (addr, dma, pool) =>
        (.ok, (s.allocated o addr dma pool).addAttachment o)
  else
    (.ok, s.addAttachment o)

/-- The object's region goes back to the pool. -/
def released (s : NvmeDev n) (o : Fin n) : NvmeDev n :=
  (s.setPool (nvmeFreeCmb s.cmbPool (s.objects o).addr)).setObject o
    (((s.objects o).setAddr 0).setDmaAddr 0)

/-- `--obj->attachments`, and the attachment is gone -/
def dropAttachment (s : NvmeDev n) (i : Nat) (o : Fin n) : NvmeDev n :=
  (s.setObject o ((s.objects o).setAttachments ((s.objects o).attachments - 1))).setAttachments
    (s.attachments.set i ⟨o, none⟩)

/-- `nvme_cmb_map_detach` of the `i`-th attachment -/
def nvmeCmbMapDetach (s : NvmeDev n) (i : Nat) (a : DmaBufAttachment n) : Result × NvmeDev n :=
  match a.priv with
  | none => (.ok, s)
  | some _ =>
      if (s.objects a.obj).attachments - 1 = 0 then
        (.ok, (s.dropAttachment i a.obj).released a.obj)
      else
        (.ok, s.dropAttachment i a.obj)

/-- The attachment keeps the scatter list. -/
def mapped (s : NvmeDev n) (i : Nat) (o : Fin n) (dir : Direction) : NvmeDev n :=
  s.setAttachments (s.attachments.set i ⟨o, some ⟨(s.objects o).sgTable, dir⟩⟩)

/-- `nvme_cmb_map_dma_buf` -/
def nvmeCmbMapDmaBuf (s : NvmeDev n) (i : Nat) (a : DmaBufAttachment n) (dir : Direction)
    (sgAlloc : Bool) : Result × NvmeDev n :=
  match a.priv with
  | none => (.failed .einval, s)
  | some c =>
      if dir = .none then (.failed .einval, s)
      else if c.dir = dir then (.sgTable c.sgt, s)
      else if c.dir ≠ .none then (.failed .ebusy, s)
      else if sgAlloc = false then (.failed .enomem, s)
      else (.sgTable (s.objects a.obj).sgTable, s.mapped i a.obj dir)

/-- `nvme_cmb_dmabuf_mmap` -/
def nvmeCmbDmabufMmap (s : NvmeDev n) (o : Fin n) (pages : Nat) (cow : Bool) : Result × NvmeDev n :=
  if (s.objects o).objSize < pages * pageSize then
    (.failed .einval, s)
  else
    (.ok, s.setVmas (s.vmas ++ [⟨o, pages, cow, none⟩]))

/-- What `nvme_cmb_fault` makes of the return value of `io_remap_pfn_range`. -/
def faultCode : Option Errno → VmFault
  | none | some .eagain | some .erestartsys | some .eintr | some .ebusy => .nopage
  | some .enomem => .oom
  | some .einval | some .efault => .sigbus

/-- The pages of the VMA are in the page table, from the region's first page on. -/
def faulted (s : NvmeDev n) (i : Nat) (v : Vma n) : NvmeDev n :=
  s.setVmas (s.vmas.set i ⟨v.obj, v.pages, v.cow, some ((s.objects v.obj).dmaAddr / pageSize)⟩)

/-- `nvme_cmb_fault` -/
def nvmeCmbFault (s : NvmeDev n) (i : Nat) (v : Vma n) (remap : Option Errno) :
    Result × NvmeDev n :=
  if (s.objects v.obj).addr = 0 ∨ v.cow = true then
    (.fault .sigbus, s)
  else
    match remap with
    | none => (.fault (faultCode none), s.faulted i v)
    | some e => (.fault (faultCode (some e)), s)

/-- One call: what it returns and the state it leaves. `mmap` is never asked for an empty
range, and a VMA whose pages are in the page table does not fault. -/
def call (s : NvmeDev n) : Op n → Option (Result × NvmeDev n)
  | .attach o kzalloc base => some (s.nvmeCmbMapAttach o kzalloc base)
  | .detach i => s.attachments[i]?.map fun a => s.nvmeCmbMapDetach i a
  | .mapDmaBuf i dir sgAlloc => s.attachments[i]?.map fun a => s.nvmeCmbMapDmaBuf i a dir sgAlloc
  | .mmap o pages cow => if pages = 0 then none else some (s.nvmeCmbDmabufMmap o pages cow)
  | .fault i remap => s.vmas[i]?.bind fun v =>
      if v.mapped = none then some (s.nvmeCmbFault i v remap) else none
  | .munmap i => s.vmas[i]?.map fun _ => (.ok, s.setVmas (s.vmas.eraseIdx i))

/-- New objects; only submission queues have a region. -/
def Init (s : NvmeDev n) : Prop :=
  (∀ o, (s.objects o).Fresh ∧ regions s.cmbPool o = []) ∧ s.attachments = [] ∧ s.vmas = []

end NvmeDev

/-- A device with new objects of the sizes. -/
def NvmeDev.start (pool : GenPool n) (sizes : Fin n → Nat) : NvmeDev n :=
  ⟨some pool, fun o => ⟨sizes o, 0, 0, 0⟩, [], []⟩

/-- Any calls, on any of the objects. -/
def dmabuf (n : Nat) : TSys (NvmeDev n) (Op n) where
  init := NvmeDev.Init
  step s op := (s.call op).map Prod.snd

/-! ## The pool's two calls -/

namespace GenPool

theorem address_free (p : GenPool n) (addr : Nat) : (p.free addr).address = p.address := rfl

theorem regions_grant (p : GenPool n) (o o' : Fin n) {e : Extent} (h : p.arena.Fits e) :
    regions (some (p.grant o e h)) o' =
      if o = o' then e :: regions (some p) o' else regions (some p) o' := by
  have howned := Arena.owned_alloc h (some o) (some o')
  simp only [Option.some.injEq] at howned
  exact howned

/-- The address `gen_pool_dma_alloc` returned leads back to the region's base. -/
theorem base_address (p : GenPool n) {o : Fin n} {e : Extent} (he : e ∈ regions (some p) o) :
    p.arena.range.base + (p.address e.base - p.virt) = e.base := by
  have hle := (p.arena.inside _ (Arena.mem_owned.mp he)).1
  unfold address
  simp only at hle
  omega

theorem regions_free_self (p : GenPool n) {o : Fin n} {dma size : Nat}
    (he : regions (some p) o = [⟨dma, size⟩]) : regions (some (p.free (p.address dma))) o = [] := by
  have hmem : ⟨dma, size⟩ ∈ regions (some p) o := he ▸ List.mem_singleton_self _
  have hfree := Arena.owned_free_self he
  rw [← p.base_address hmem] at hfree
  exact hfree

theorem regions_free_of_ne (p : GenPool n) {o o' : Fin n} {dma size : Nat}
    (he : regions (some p) o = [⟨dma, size⟩]) (hne : o' ≠ o) :
    regions (some (p.free (p.address dma))) o' = regions (some p) o' := by
  have hmem : ⟨dma, size⟩ ∈ regions (some p) o := he ▸ List.mem_singleton_self _
  have hfree := Arena.owned_free_of_ne hmem (fun h => hne (Option.some.inj h))
  rw [← p.base_address hmem] at hfree
  exact hfree

end GenPool

/-- Where `nvme_alloc_cmb` does not return null. -/
theorem nvmeAllocCmb_some {pool : Option (GenPool n)} {o : Fin n} {size addr dma : Nat}
    {base : Option Nat} {p' : GenPool n}
    (h : nvmeAllocCmb pool o size base = some (addr, dma, p')) :
    ∃ p, ∃ hfit : p.arena.Fits ⟨dma, pageAlign size⟩,
      pool = some p ∧ addr = p.address dma ∧ p' = p.grant o ⟨dma, pageAlign size⟩ hfit := by
  obtain ⟨p, hp, h⟩ := Option.bind_eq_some_iff.mp h
  obtain ⟨b, -, h⟩ := Option.bind_eq_some_iff.mp h
  unfold GenPool.dmaAlloc at h
  split at h
  · rename_i hfit
    cases h
    exact ⟨p, hfit, hp, rfl, rfl⟩
  · cases h

/-! ## What a call can do -/

/-- A call in `s`, what it returns and the state it leads to. -/
inductive Moves (s : NvmeDev n) : Op n → Result → NvmeDev n → Prop
  | same {op r} (h : ∀ i, op = .detach i → ∀ a, s.attachments[i]? = some a → a.priv = none) :
      Moves s op r s
  | first {o base addr dma pool} (hidle : (s.objects o).attachments = 0)
      (halloc : nvmeAllocCmb s.cmbPool o (s.objects o).size base = some (addr, dma, pool)) :
      Moves s (.attach o true base) .ok ((s.allocated o addr dma pool).addAttachment o)
  | more {o base} (hbusy : (s.objects o).attachments ≠ 0) :
      Moves s (.attach o true base) .ok (s.addAttachment o)
  | last {i a c} (ha : s.attachments[i]? = some a) (hlive : a.priv = some c)
      (hlast : (s.objects a.obj).attachments = 1) :
      Moves s (.detach i) .ok ((s.dropAttachment i a.obj).released a.obj)
  | fewer {i a c} (ha : s.attachments[i]? = some a) (hlive : a.priv = some c)
      (hmore : (s.objects a.obj).attachments ≠ 1) :
      Moves s (.detach i) .ok (s.dropAttachment i a.obj)
  | mapped {i a c dir} (ha : s.attachments[i]? = some a) (hlive : a.priv = some c) :
      Moves s (.mapDmaBuf i dir true) (.sgTable (s.objects a.obj).sgTable) (s.mapped i a.obj dir)
  | mmap {o pages cow} (hpos : pages ≠ 0) (hle : pages * pageSize ≤ (s.objects o).size) :
      Moves s (.mmap o pages cow) .ok (s.setVmas (s.vmas ++ [⟨o, pages, cow, none⟩]))
  | fault {i v} (hv : s.vmas[i]? = some v) (haddr : (s.objects v.obj).addr ≠ 0) :
      Moves s (.fault i none) (.fault .nopage) (s.faulted i v)
  | munmap {i} : Moves s (.munmap i) .ok (s.setVmas (s.vmas.eraseIdx i))

variable {s s' : NvmeDev n}

/-- A pointer that is null already. -/
theorem NvmeDev.setAddr_zero {o : Fin n} (h : (s.objects o).addr = 0) :
    s.setObject o ((s.objects o).setAddr 0) = s := by
  unfold NvmeDev.setObject CmbObject.setAddr
  rw [← h, Function.update_eq_self]

theorem NvmeDev.nvmeCmbMapAttach_moves (hidle : ∀ o, (s.objects o).attachments = 0 →
    (s.objects o).addr = 0) (o : Fin n) (kzalloc : Bool) (base : Option Nat) :
    Moves s (.attach o kzalloc base) (s.nvmeCmbMapAttach o kzalloc base).1
      (s.nvmeCmbMapAttach o kzalloc base).2 := by
  unfold NvmeDev.nvmeCmbMapAttach
  split
  · exact .same (by simp)
  · rename_i hk
    rw [Bool.not_eq_false] at hk
    subst hk
    split
    · rename_i h₀
      split
      · simp only [NvmeDev.setAddr_zero (hidle o h₀)]
        exact .same (by simp)
      · rename_i addr dma pool halloc
        exact .first h₀ halloc
    · rename_i hbusy
      exact .more hbusy

theorem NvmeDev.nvmeCmbMapDetach_moves {i : Nat} {a : DmaBufAttachment n}
    (ha : s.attachments[i]? = some a) : Moves s (.detach i) (s.nvmeCmbMapDetach i a).1
      (s.nvmeCmbMapDetach i a).2 := by
  unfold NvmeDev.nvmeCmbMapDetach
  split
  · rename_i hnull
    refine .same fun j hj b hb => ?_
    cases hj
    rw [ha] at hb
    exact Option.some.inj hb ▸ hnull
  · rename_i c hlive
    split
    · rename_i hlast
      exact .last ha hlive (by omega)
    · rename_i hmore
      exact .fewer ha hlive (by omega)

theorem NvmeDev.nvmeCmbMapDmaBuf_moves {i : Nat} {a : DmaBufAttachment n}
    (ha : s.attachments[i]? = some a) (dir : Direction) (sgAlloc : Bool) :
    Moves s (.mapDmaBuf i dir sgAlloc) (s.nvmeCmbMapDmaBuf i a dir sgAlloc).1
      (s.nvmeCmbMapDmaBuf i a dir sgAlloc).2 := by
  unfold NvmeDev.nvmeCmbMapDmaBuf
  have hsame : ∀ r, Moves s (.mapDmaBuf i dir sgAlloc) r s := fun r => .same (by simp)
  split
  · exact hsame _
  · rename_i c hlive
    split
    · exact hsame _
    split
    · exact hsame _
    split
    · exact hsame _
    split
    · exact hsame _
    · rename_i hsg
      rw [Bool.not_eq_false] at hsg
      subst hsg
      exact .mapped ha hlive

theorem NvmeDev.nvmeCmbDmabufMmap_moves {o : Fin n} {pages : Nat} (hpos : pages ≠ 0) (cow : Bool) :
    Moves s (.mmap o pages cow) (s.nvmeCmbDmabufMmap o pages cow).1
      (s.nvmeCmbDmabufMmap o pages cow).2 := by
  unfold NvmeDev.nvmeCmbDmabufMmap
  split
  · exact .same (by simp)
  · rename_i hle
    exact .mmap hpos (Nat.le_of_not_lt hle)

theorem NvmeDev.nvmeCmbFault_moves {i : Nat} {v : Vma n} (hv : s.vmas[i]? = some v)
    (remap : Option Errno) : Moves s (.fault i remap) (s.nvmeCmbFault i v remap).1
      (s.nvmeCmbFault i v remap).2 := by
  unfold NvmeDev.nvmeCmbFault
  split
  · exact .same (by simp)
  · rename_i hgo
    cases remap with
    | none => exact .fault hv (fun h => hgo (.inl h))
    | some e => exact .same (by simp)

/-- Where an object without attachments has no address, a call is one of the moves. -/
theorem NvmeDev.call_moves (hidle : ∀ o, (s.objects o).attachments = 0 → (s.objects o).addr = 0)
    {op : Op n} {r : Result} (h : s.call op = some (r, s')) : Moves s op r s' := by
  cases op with
  | attach o kzalloc base =>
    have hmove := nvmeCmbMapAttach_moves hidle o kzalloc base
    rwa [Option.some.inj h] at hmove
  | detach i =>
    obtain ⟨a, ha, h⟩ := Option.map_eq_some_iff.mp h
    have hmove := nvmeCmbMapDetach_moves ha
    rwa [h] at hmove
  | mapDmaBuf i dir sgAlloc =>
    obtain ⟨a, ha, h⟩ := Option.map_eq_some_iff.mp h
    have hmove := nvmeCmbMapDmaBuf_moves ha dir sgAlloc
    rwa [h] at hmove
  | mmap o pages cow =>
    simp only [call] at h
    split at h
    · cases h
    · rename_i hpos
      have hmove := nvmeCmbDmabufMmap_moves (s := s) (o := o) hpos cow
      rwa [Option.some.inj h] at hmove
  | fault i remap =>
    obtain ⟨v, hv, h⟩ := Option.bind_eq_some_iff.mp h
    split at h
    · have hmove := nvmeCmbFault_moves hv remap
      rwa [Option.some.inj h] at hmove
    · cases h
  | munmap i =>
    obtain ⟨v, -, h⟩ := Option.map_eq_some_iff.mp h
    cases h
    exact .munmap

end LogDirect.Cmb
