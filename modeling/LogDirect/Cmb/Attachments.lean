import LogDirect.Cmb.Dmabuf

/-!
# Attachments and the region

An object has a region of the pool exactly while it has attachments, and its count
is the number of attachments that are live. The scatter list an attachment keeps
stays right however the others come and go: the address changes only where no
attachment is left, and the count says so.
-/

namespace LogDirect.Cmb

open Lib

variable {n : Nat}

/-- The object and the pool agree: nothing is held for a fresh object, and one region, at the
object's addresses, for an object with attachments. -/
def Backed (pool : Option (GenPool n)) (o : Fin n) (obj : CmbObject) : Prop :=
  obj.Fresh ∧ regions pool o = [] ∨
    0 < obj.attachments ∧ regions pool o = [⟨obj.dmaAddr, pageAlign obj.size⟩] ∧
      ∃ p, pool = some p ∧ obj.addr = p.address obj.dmaAddr

namespace Backed

variable {pool pool' : Option (GenPool n)} {o : Fin n} {obj : CmbObject}

theorem fresh (h : Backed pool o obj) (hzero : obj.attachments = 0) :
    obj.Fresh ∧ regions pool o = [] := by
  rcases h with h | ⟨hpos, -⟩
  · exact h
  · omega

theorem holds (h : Backed pool o obj) (hne : obj.attachments ≠ 0) : 0 < obj.attachments ∧
    regions pool o = [⟨obj.dmaAddr, pageAlign obj.size⟩] ∧
      ∃ p, pool = some p ∧ obj.addr = p.address obj.dmaAddr := by
  rcases h with ⟨hfresh, -⟩ | h
  · exact absurd hfresh.2.2 hne
  · exact h

/-- A pool that changed for other objects. -/
theorem frame (h : Backed pool o obj) (hregions : regions pool' o = regions pool o)
    (haddress : ∀ p, pool = some p → ∃ p', pool' = some p' ∧ p'.address = p.address) :
    Backed pool' o obj := by
  rcases h with ⟨hfresh, hnone⟩ | ⟨hpos, hone, p, hp, haddr⟩
  · exact .inl ⟨hfresh, hregions.trans hnone⟩
  · obtain ⟨p', hp', hsame⟩ := haddress p hp
    exact .inr ⟨hpos, hregions.trans hone, p', hp', by rw [haddr, hsame]⟩

/-- Only the count changes, and stays positive. -/
theorem recount (h : Backed pool o obj) (hne : obj.attachments ≠ 0) {k : Int} (hk : 0 < k) :
    Backed pool o (obj.setAttachments k) := by
  obtain ⟨-, hone, hp⟩ := h.holds hne
  exact .inr ⟨hk, hone, hp⟩

end Backed

/-- The attachment is live, and to the object. -/
def DmaBufAttachment.LiveAt (o : Fin n) (a : DmaBufAttachment n) : Bool :=
  a.obj = o && a.priv.isSome

/-- The live attachments of the object. -/
def NvmeDev.liveAttachments (s : NvmeDev n) (o : Fin n) : Nat :=
  s.attachments.countP (DmaBufAttachment.LiveAt o)

/-- Every count is the number of live attachments. -/
def NvmeDev.Counted (s : NvmeDev n) : Prop :=
  ∀ o, (s.objects o).attachments = s.liveAttachments o

/-- A live attachment that was mapped has the scatter list of its object. -/
def NvmeDev.Listed (s : NvmeDev n) : Prop :=
  ∀ a ∈ s.attachments, ∀ c, a.priv = some c → c.dir ≠ .none → c.sgt = (s.objects a.obj).sgTable

structure NvmeDev.Wf (s : NvmeDev n) : Prop where
  backed : ∀ o, Backed s.cmbPool o (s.objects o)
  counted : s.Counted
  listed : s.Listed

namespace NvmeDev

variable {s s' : NvmeDev n} {o : Fin n}

variable {a : DmaBufAttachment n} {i : Nat} {c : CmbAttachment}

/-- An object whose count is zero has no live attachment. -/
theorem not_live (hcount : s.liveAttachments o = 0) (ha : a ∈ s.attachments) (ho : a.obj = o) :
    a.priv = none := by
  have hnot := List.countP_eq_zero.mp hcount a ha
  simpa [DmaBufAttachment.LiveAt, ho] using hnot

/-! ## The object of a call, and the others -/

/-- What an object's update leaves alone is the same of every object. -/
theorem apply_ite_objects {α : Type} (f : CmbObject → α) {obj : CmbObject}
    (h : f obj = f (s.objects o)) (o' : Fin n) :
    f (if o' = o then obj else s.objects o') = f (s.objects o') := by
  split
  · rename_i ho
    rw [ho, h]
  · rfl

theorem objects_addAttachment (s : NvmeDev n) (o o' : Fin n) : (s.addAttachment o).objects o' =
    if o' = o then (s.objects o).setAttachments ((s.objects o).attachments + 1) else s.objects o' :=
  Function.update_apply ..

theorem objects_dropAttachment (s : NvmeDev n) (i : Nat) (o o' : Fin n) :
    (s.dropAttachment i o).objects o' =
      if o' = o then (s.objects o).setAttachments ((s.objects o).attachments - 1)
      else s.objects o' :=
  Function.update_apply ..

theorem objects_allocated (s : NvmeDev n) (o o' : Fin n) (addr dma : Nat) (pool : GenPool n) :
    (s.allocated o addr dma pool).objects o' =
      if o' = o then ((s.objects o).setAddr addr).setDmaAddr dma else s.objects o' :=
  Function.update_apply ..

theorem objects_released (s : NvmeDev n) (o o' : Fin n) : (s.released o).objects o' =
    if o' = o then ((s.objects o).setAddr 0).setDmaAddr 0 else s.objects o' :=
  Function.update_apply ..

/-! ## The count -/

theorem Counted.add (h : s.Counted) (o : Fin n) : (s.addAttachment o).Counted := by
  intro o'
  have hlive : (s.addAttachment o).liveAttachments o' =
      s.liveAttachments o' + if o = o' then 1 else 0 := by
    unfold liveAttachments addAttachment setAttachments
    simp [List.countP_append, DmaBufAttachment.LiveAt, List.countP_cons]
  rw [hlive, objects_addAttachment]
  by_cases ho : o' = o
  · subst ho
    simp [CmbObject.setAttachments, h o']
  · simp [ho, Ne.symm ho, h o']

theorem Counted.drop (h : s.Counted) (ha : s.attachments[i]? = some a) (hlive : a.priv = some c) :
    (s.dropAttachment i a.obj).Counted := by
  intro o'
  have hset : (s.dropAttachment i a.obj).liveAttachments o' + (if a.obj = o' then 1 else 0) =
      s.liveAttachments o' := by
    have hset := countP_set_add ha (DmaBufAttachment.LiveAt o') ⟨a.obj, none⟩
    unfold liveAttachments dropAttachment setAttachments
    simpa [DmaBufAttachment.LiveAt, hlive] using hset
  have hold := h o'
  rw [objects_dropAttachment]
  by_cases ho : o' = a.obj
  · subst ho
    rw [if_pos rfl] at hset ⊢
    simp only [CmbObject.setAttachments]
    omega
  · rw [if_neg (Ne.symm ho)] at hset
    rw [if_neg ho]
    omega

theorem Counted.mapped (h : s.Counted) (ha : s.attachments[i]? = some a) (hlive : a.priv = some c)
    (dir : Direction) : (s.mapped i a.obj dir).Counted := by
  intro o'
  have hset := countP_set_add ha (DmaBufAttachment.LiveAt o')
    ⟨a.obj, some ⟨(s.objects a.obj).sgTable, dir⟩⟩
  have hsame : (s.mapped i a.obj dir).liveAttachments o' = s.liveAttachments o' := by
    unfold liveAttachments NvmeDev.mapped setAttachments
    simpa [DmaBufAttachment.LiveAt, hlive] using hset
  rw [hsame]
  exact h o'

/-- The addresses do not count. -/
theorem Counted.allocated (h : s.Counted) (o : Fin n) (addr dma : Nat) (pool : GenPool n) :
    (s.allocated o addr dma pool).Counted := by
  intro o'
  rw [objects_allocated, apply_ite_objects CmbObject.attachments]
  · exact h o'
  · rfl

theorem Counted.released (h : s.Counted) (o : Fin n) : (s.released o).Counted := by
  intro o'
  rw [objects_released, apply_ite_objects CmbObject.attachments]
  · exact h o'
  · rfl

/-! ## The scatter lists -/

theorem Listed.add (h : s.Listed) (o : Fin n) : (s.addAttachment o).Listed := by
  intro a ha c hc hdir
  have hsame : ((s.addAttachment o).objects a.obj).sgTable = (s.objects a.obj).sgTable := by
    rw [objects_addAttachment]
    apply apply_ite_objects CmbObject.sgTable
    rfl
  rw [hsame]
  rcases List.mem_append.mp ha with ha | ha
  · exact h a ha c hc hdir
  · -- the new attachment has no direction yet
    rw [List.mem_singleton.mp ha] at hc
    cases hc
    exact absurd rfl hdir

theorem Listed.drop (h : s.Listed) (i : Nat) (o : Fin n) : (s.dropAttachment i o).Listed := by
  intro a ha c hc hdir
  have hsame : ((s.dropAttachment i o).objects a.obj).sgTable = (s.objects a.obj).sgTable := by
    rw [objects_dropAttachment]
    apply apply_ite_objects CmbObject.sgTable
    rfl
  rw [hsame]
  rcases mem_of_mem_set ha with rfl | ha
  · cases hc
  · exact h a ha c hc hdir

theorem Listed.mapped (h : s.Listed) (i : Nat) (o : Fin n) (dir : Direction) :
    (s.mapped i o dir).Listed := by
  intro a ha c hc hdir
  rcases mem_of_mem_set ha with rfl | ha
  · cases hc
    rfl
  · exact h a ha c hc hdir

/-- The addresses may change where no attachment is live. -/
theorem Listed.allocated (h : s.Listed) (hzero : s.liveAttachments o = 0) (addr dma : Nat)
    (pool : GenPool n) : (s.allocated o addr dma pool).Listed := by
  intro a ha c hc hdir
  have ho : a.obj ≠ o := fun ho => by
    rw [not_live hzero ha ho] at hc
    cases hc
  rw [objects_allocated, if_neg ho]
  exact h a ha c hc hdir

theorem Listed.released (h : s.Listed) (hzero : s.liveAttachments o = 0) :
    (s.released o).Listed := by
  intro a ha c hc hdir
  have ho : a.obj ≠ o := fun ho => by
    rw [not_live hzero ha ho] at hc
    cases hc
  rw [objects_released, if_neg ho]
  exact h a ha c hc hdir

/-! ## The region -/

theorem Wf.backed_first (h : s.Wf) (hidle : (s.objects o).attachments = 0) {base : Option Nat}
    {addr dma : Nat} {pool : GenPool n}
    (halloc : nvmeAllocCmb s.cmbPool o (s.objects o).size base = some (addr, dma, pool))
    (o' : Fin n) :
    Backed (some pool) o' (((s.allocated o addr dma pool).addAttachment o).objects o') := by
  obtain ⟨p, hfit, hp, rfl, rfl⟩ := nvmeAllocCmb_some halloc
  rw [objects_addAttachment]
  by_cases ho : o' = o
  · subst ho
    have hnone := ((h.backed o').fresh hidle).2
    rw [if_pos rfl, objects_allocated, if_pos rfl]
    refine .inr ⟨?_, ?_, _, rfl, rfl⟩
    · show 0 < (s.objects o').attachments + 1
      omega
    · rw [hp] at hnone
      rw [GenPool.regions_grant, if_pos rfl, hnone]
      rfl
  · rw [if_neg ho, objects_allocated, if_neg ho]
    refine (h.backed o').frame ?_ ?_
    · rw [GenPool.regions_grant, if_neg (Ne.symm ho), hp]
    · intro q hq
      rw [hp] at hq
      cases hq
      exact ⟨_, rfl, rfl⟩

theorem Wf.backed_more (h : s.Wf) (hbusy : (s.objects o).attachments ≠ 0) (o' : Fin n) :
    Backed s.cmbPool o' ((s.addAttachment o).objects o') := by
  rw [objects_addAttachment]
  split
  · rename_i ho
    subst ho
    have hpos := ((h.backed o').holds hbusy).1
    exact (h.backed o').recount hbusy (by omega)
  · exact h.backed o'

theorem Wf.backed_fewer (h : s.Wf) (i : Nat) (hmore : 1 < (s.objects o).attachments) (o' : Fin n) :
    Backed s.cmbPool o' ((s.dropAttachment i o).objects o') := by
  rw [objects_dropAttachment]
  split
  · rename_i ho
    subst ho
    exact (h.backed o').recount (by omega) (by omega)
  · exact h.backed o'

/-- What is freed is at the address the object has before the call. -/
theorem cmbPool_last (s : NvmeDev n) (i : Nat) (o : Fin n) :
    ((s.dropAttachment i o).released o).cmbPool = nvmeFreeCmb s.cmbPool (s.objects o).addr := by
  show nvmeFreeCmb s.cmbPool ((s.dropAttachment i o).objects o).addr = _
  rw [objects_dropAttachment, if_pos rfl]
  rfl

theorem Wf.backed_last (h : s.Wf) (i : Nat) (hlast : (s.objects o).attachments = 1) (o' : Fin n) :
    Backed ((s.dropAttachment i o).released o).cmbPool o'
      (((s.dropAttachment i o).released o).objects o') := by
  obtain ⟨-, hone, p, hp, haddr⟩ := (h.backed o).holds (by omega)
  rw [hp] at hone
  rw [cmbPool_last, hp, haddr, nvmeFreeCmb_some, objects_released]
  by_cases ho : o' = o
  · subst ho
    rw [if_pos rfl, objects_dropAttachment, if_pos rfl]
    refine .inl ⟨⟨rfl, rfl, ?_⟩, p.regions_free_self hone⟩
    show (s.objects o').attachments - 1 = 0
    omega
  · rw [if_neg ho, objects_dropAttachment, if_neg ho]
    have hback := h.backed o'
    rw [hp] at hback
    refine hback.frame (p.regions_free_of_ne hone ho) ?_
    intro q hq
    cases hq
    exact ⟨_, rfl, p.address_free _⟩

/-! ## Every call -/

/-- An attachment that is live counts. -/
theorem Wf.pos_of_live (h : s.Wf) (ha : s.attachments[i]? = some a) (hlive : a.priv = some c) :
    0 < (s.objects a.obj).attachments := by
  have hpos : 0 < s.liveAttachments a.obj := by
    refine List.countP_pos_iff.mpr ⟨a, List.mem_of_getElem? ha, ?_⟩
    simp [DmaBufAttachment.LiveAt, hlive]
  have := h.counted a.obj
  omega

end NvmeDev

open NvmeDev

variable {op : Op n}

theorem Moves.wf {s s' : NvmeDev n} {r : Result} (hmove : Moves s op r s') (h : s.Wf) : s'.Wf := by
  cases hmove with
  | same => exact h
  | @first o base addr dma pool hidle halloc =>
    have hzero : s.liveAttachments o = 0 := by
      have := h.counted o
      omega
    exact ⟨h.backed_first hidle halloc, (h.counted.allocated o addr dma pool).add o,
      (h.listed.allocated hzero addr dma pool).add o⟩
  | @more o base hbusy => exact ⟨h.backed_more hbusy, h.counted.add o, h.listed.add o⟩
  | @last i a c ha hlive hlast =>
    have hcount := h.counted.drop ha hlive
    have hzero : (s.dropAttachment i a.obj).liveAttachments a.obj = 0 := by
      have hobj := hcount a.obj
      rw [objects_dropAttachment, if_pos rfl] at hobj
      simp only [CmbObject.setAttachments] at hobj
      omega
    exact ⟨h.backed_last i hlast, hcount.released a.obj, (h.listed.drop i a.obj).released hzero⟩
  | @fewer i a c ha hlive hmore =>
    have hpos := h.pos_of_live ha hlive
    exact ⟨h.backed_fewer i (by omega), h.counted.drop ha hlive, h.listed.drop i a.obj⟩
  | @mapped i a c dir ha hlive =>
    exact ⟨h.backed, h.counted.mapped ha hlive dir, h.listed.mapped i a.obj dir⟩
  | mmap | fault | munmap => exact ⟨h.backed, h.counted, h.listed⟩

variable {s s' : NvmeDev n}

theorem NvmeDev.Init.wf (h : s.Init) : s.Wf := by
  obtain ⟨hfresh, hnone, -⟩ := h
  refine ⟨fun o => .inl (hfresh o), fun o => ?_, fun a ha => ?_⟩
  · rw [(hfresh o).1.2.2, liveAttachments, hnone]
    rfl
  · rw [hnone] at ha
    cases ha

theorem NvmeDev.Wf.addr_zero (h : s.Wf) (o : Fin n) (hzero : (s.objects o).attachments = 0) :
    (s.objects o).addr = 0 :=
  ((h.backed o).fresh hzero).1.1

/-- A step of the system is one of the moves. -/
theorem NvmeDev.Wf.moves (h : s.Wf) (hstep : (dmabuf n).step s op = some s') :
    ∃ r, Moves s op r s' := by
  obtain ⟨⟨r, s'⟩, hcall, rfl⟩ := Option.map_eq_some_iff.mp hstep
  exact ⟨r, call_moves h.addr_zero hcall⟩

theorem NvmeDev.Wf.step (h : s.Wf) (hstep : (dmabuf n).step s op = some s') : s'.Wf := by
  obtain ⟨r, hmove⟩ := h.moves hstep
  exact hmove.wf h

theorem NvmeDev.wf_of_reachable (h : (dmabuf n).Reachable s) : s.Wf :=
  h.invariant Wf (fun _ => Init.wf) fun _ _ _ hs hstep => hs.step hstep

/-- The address is null exactly where there is no attachment. -/
theorem Backed.addr_ne_zero_iff {pool : Option (GenPool n)} {o : Fin n} {obj : CmbObject}
    (h : Backed pool o obj) : obj.addr ≠ 0 ↔ 0 < obj.attachments := by
  rcases h with ⟨⟨haddr, -, hcount⟩, -⟩ | ⟨hpos, -, p, -, haddr⟩
  · simp [haddr, hcount]
  · rw [haddr]
    exact ⟨fun _ => hpos, fun _ => p.address_ne_zero _⟩

/-- A call that returns an error code changes nothing. -/
theorem NvmeDev.Wf.failed (h : s.Wf) {e : Errno} (hcall : s.call op = some (.failed e, s')) :
    s' = s := by
  cases call_moves h.addr_zero hcall with
  | same => rfl

/-- After any calls, each allocation failing or not: an object has an address exactly while
its count is positive, the count is the number of live attachments, the pool holds one region
for such an object and none for another, and a mapped attachment has a list of one entry with
the object's address. A call that fails leaves everything as it was. -/
theorem attachments_hold_region (h : (dmabuf n).Reachable s) :
    (∀ o, ((s.objects o).addr ≠ 0 ↔ 0 < (s.objects o).attachments) ∧
      (s.objects o).attachments = s.liveAttachments o ∧
      regions s.cmbPool o = if 0 < (s.objects o).attachments then
        [⟨(s.objects o).dmaAddr, pageAlign (s.objects o).size⟩] else []) ∧
    (∀ a ∈ s.attachments, ∀ c, a.priv = some c → c.dir ≠ .none →
      ∃ e, c.sgt = [e] ∧ e.dmaAddress = (s.objects a.obj).dmaAddr) ∧
    ∀ op e s', s.call op = some (.failed e, s') → s' = s := by
  have hwf := wf_of_reachable h
  refine ⟨fun o => ⟨(hwf.backed o).addr_ne_zero_iff, hwf.counted o, ?_⟩, ?_, ?_⟩
  · rcases hwf.backed o with ⟨⟨-, -, hcount⟩, hnone⟩ | ⟨hpos, hone, -⟩
    · rw [hnone, hcount]
      rfl
    · rw [hone, if_pos hpos]
  · intro a ha c hc hdir
    exact ⟨_, hwf.listed a ha c hc hdir, rfl⟩
  · intro op e s' hcall
    exact hwf.failed hcall

/-- The device the samples run on: two pages of buffer. -/
def NvmeDev.sample (n : Nat) : NvmeDev n :=
  .start (.create ⟨8192, 8192⟩ 1 Nat.one_pos) fun _ => 4096

theorem NvmeDev.sample_init : (NvmeDev.sample n).Init :=
  ⟨fun _ => ⟨⟨rfl, rfl, rfl⟩, rfl⟩, rfl, rfl⟩

/-- An attachment the pool has no place for, two that share a region, and one of them
mapped. -/
theorem two_attachments_one_region : ∃ s : NvmeDev 1, (dmabuf 1).Reachable s ∧
    s.liveAttachments 0 = 2 ∧ regions s.cmbPool 0 = [⟨8192, 4096⟩] ∧ ∃ a ∈ s.attachments,
      ∃ c, a.priv = some c ∧ c.dir = .toDevice ∧ ∃ e, c.sgt = [e] ∧ e.dmaAddress = 8192 := by
  obtain ⟨tr, s, htr, hcount, hdma, hsize, a, ha, c, hc, hdir⟩ : ∃ tr s,
      (dmabuf 1).trace (NvmeDev.sample 1) [.attach 0 true none, .attach 0 true (some 8192),
        .attach 0 true none, .mapDmaBuf 0 .toDevice true] = some (tr, s) ∧
      (s.objects 0).attachments = 2 ∧ (s.objects 0).dmaAddr = 8192 ∧ (s.objects 0).size = 4096 ∧
      ∃ a, s.attachments[0]? = some a ∧ ∃ c, a.priv = some c ∧ c.dir = .toDevice :=
    ⟨_, _, rfl, rfl, rfl, rfl, _, rfl, _, rfl, rfl⟩
  have hreach : (dmabuf 1).Reachable s := ⟨_, tr, sample_init, TSys.run_of_trace htr⟩
  obtain ⟨hobj, hlist, -⟩ := attachments_hold_region hreach
  obtain ⟨-, hlive, hregion⟩ := hobj 0
  have hmem := List.mem_of_getElem? ha
  obtain ⟨e, he, haddr⟩ := hlist a hmem c hc (by rw [hdir]; decide)
  have ho : a.obj = 0 := Subsingleton.elim _ _
  refine ⟨s, hreach, by omega, ?_, a, hmem, c, hc, hdir, e, he, ?_⟩
  · rw [hregion, hcount, hdma, hsize]
    rfl
  · rw [haddr, ho, hdma]

end LogDirect.Cmb
