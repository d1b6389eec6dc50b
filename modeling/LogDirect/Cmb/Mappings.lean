import LogDirect.Cmb.Attachments

/-!
# User mappings of the buffer

A page fault puts the pages of the object's region in the page table, where they
stay until the VMA goes away. The region goes away with the last attachment, and
nothing in `nvme_cmb_map_detach` looks for VMAs. So a mapping is good exactly as
long as no last attachment is dropped under it.
-/

namespace LogDirect.Cmb

open Lib TSys

variable {n : Nat}

/-- The bus address is in one of the pages the VMA maps. -/
def Vma.Maps (v : Vma n) (p : Nat) : Prop :=
  ∃ pfn, v.mapped = some pfn ∧ (⟨pfn * pageSize, v.pages * pageSize⟩ : Extent).Holds p

namespace NvmeDev

/-- Every page that a VMA maps is in the region of the VMA's object, and in no other region
of the pool. -/
def NoStaleMapping (s : NvmeDev n) : Prop :=
  ∀ v ∈ s.vmas, ∀ p, v.Maps p → (∃ e ∈ regions s.cmbPool v.obj, e.Holds p) ∧
    ∀ pool, s.cmbPool = some pool → ∀ r ∈ pool.arena.regions, r.extent.Holds p →
      r.owner = some v.obj

/-- No VMA of the object has its pages in the page table. -/
def Unmapped (s : NvmeDev n) (o : Fin n) : Prop := ∀ v ∈ s.vmas, v.obj = o → v.mapped = none

instance (s : NvmeDev n) (o : Fin n) : Decidable (s.Unmapped o) :=
  inferInstanceAs (Decidable (∀ v ∈ s.vmas, v.obj = o → v.mapped = none))

/-- An object's last attachment is dropped only while none of its VMAs is mapped. -/
def LastDetachUnmapped (s : NvmeDev n) : Op n → Prop
  | .detach i => ∀ a, s.attachments[i]? = some a → a.priv.isSome →
      (s.objects a.obj).attachments = 1 → s.Unmapped a.obj
  | .attach .. | .mapDmaBuf .. | .mmap .. | .fault .. | .munmap _ => True

/-- A VMA is not empty and not larger than its object. -/
def Sized (s : NvmeDev n) : Prop :=
  ∀ v ∈ s.vmas, v.pages ≠ 0 ∧ v.pages * pageSize ≤ (s.objects v.obj).size

/-- The VMA maps pages of its object's region only. -/
def Owns (s : NvmeDev n) (v : Vma n) : Prop :=
  ∀ p, v.Maps p → ∃ e ∈ regions s.cmbPool v.obj, e.Holds p

variable {s s' : NvmeDev n}

/-- Regions do not overlap, so a page of the own region is in no other. -/
theorem noStaleMapping_iff : s.NoStaleMapping ↔ ∀ v ∈ s.vmas, s.Owns v := by
  constructor
  · intro h v hv p hp
    exact (h v hv p hp).1
  · intro h v hv p hp
    obtain ⟨e, he, hep⟩ := h v hv p hp
    refine ⟨⟨e, he, hep⟩, fun pool hpool r hr hrp => ?_⟩
    rw [hpool] at he
    have heq := Arena.region_unique hr (Arena.mem_owned.mp he) hrp hep
    rw [heq]

/-! ## The regions a call leaves -/

/-- Allocating takes no region away. -/
theorem regions_first {o : Fin n} {base : Option Nat} {addr dma : Nat} {pool : GenPool n}
    (halloc : nvmeAllocCmb s.cmbPool o (s.objects o).size base = some (addr, dma, pool))
    {o' : Fin n} {e : Extent} (he : e ∈ regions s.cmbPool o') : e ∈ regions (some pool) o' := by
  obtain ⟨p, hfit, hp, -, rfl⟩ := nvmeAllocCmb_some halloc
  rw [hp] at he
  rw [GenPool.regions_grant]
  split
  · exact List.mem_cons_of_mem _ he
  · exact he

/-- With its last attachment an object loses its region, and no other does. -/
theorem Wf.regions_last (h : s.Wf) (i : Nat) {o : Fin n} (hlast : (s.objects o).attachments = 1)
    (o' : Fin n) : regions ((s.dropAttachment i o).released o).cmbPool o' =
      if o' = o then [] else regions s.cmbPool o' := by
  obtain ⟨-, hone, p, hp, haddr⟩ := (h.backed o).holds (by omega)
  rw [hp] at hone
  rw [cmbPool_last, hp, haddr, nvmeFreeCmb_some]
  split
  · rename_i ho
    subst ho
    exact p.regions_free_self hone
  · rename_i ho
    exact p.regions_free_of_ne hone ho

/-- The pages a fault maps are those of the region: it begins at a page and is as large
as the object. -/
theorem Wf.fault_owned (h : s.Wf) {o : Fin n} (haddr : (s.objects o).addr ≠ 0) {pages : Nat}
    (hle : pages * pageSize ≤ (s.objects o).size) :
    ∃ e ∈ regions s.cmbPool o, ∀ p, (⟨(s.objects o).dmaAddr / pageSize * pageSize,
      pages * pageSize⟩ : Extent).Holds p → e.Holds p := by
  have hpos := (h.backed o).addr_ne_zero_iff.mp haddr
  obtain ⟨-, hone, p, hp, -⟩ := (h.backed o).holds (by omega)
  refine ⟨_, hone ▸ List.mem_singleton_self _, fun q hq => ?_⟩
  have haligned : pageSize ∣ (s.objects o).dmaAddr := by
    have hmem : (⟨(s.objects o).dmaAddr, pageAlign (s.objects o).size⟩ : Extent) ∈
        p.arena.owned (some o) := by
      rw [hp] at hone
      have howned : p.arena.owned (some o) = _ := hone
      rw [howned]
      exact List.mem_singleton_self _
    exact p.arena.aligned _ (Arena.mem_owned.mp hmem)
  rw [Nat.div_mul_cancel haligned] at hq
  obtain ⟨hbase, hstop⟩ := hq
  have hround := le_pageAlign (s.objects o).size
  exact ⟨hbase, Nat.lt_of_lt_of_le hstop (Nat.add_le_add_left (Nat.le_trans hle hround) _)⟩

/-! ## One call -/

/-- No call changes a size. -/
theorem size_of_moves {op : Op n} {r : Result} (hmove : Moves s op r s') (o : Fin n) :
    (s'.objects o).size = (s.objects o).size := by
  cases hmove with
  | same | mapped | mmap | fault | munmap => rfl
  | first =>
    rw [objects_addAttachment, apply_ite_objects CmbObject.size, objects_allocated,
      apply_ite_objects CmbObject.size]
    all_goals rfl
  | last =>
    rw [objects_released, apply_ite_objects CmbObject.size, objects_dropAttachment,
      apply_ite_objects CmbObject.size]
    all_goals rfl
  | more =>
    rw [objects_addAttachment, apply_ite_objects CmbObject.size]
    rfl
  | fewer =>
    rw [objects_dropAttachment, apply_ite_objects CmbObject.size]
    rfl

theorem Sized.step (h : s.Sized) {op : Op n} {r : Result} (hmove : Moves s op r s') : s'.Sized := by
  intro v hv
  rw [size_of_moves hmove]
  cases hmove with
  | same | first | more | last | fewer | mapped => exact h v hv
  | mmap hpos hle =>
    rcases List.mem_append.mp hv with hv | hv
    · exact h v hv
    · rw [List.mem_singleton.mp hv]
      exact ⟨hpos, hle⟩
  | @fault i w hmem =>
    rcases mem_of_mem_set hv with rfl | hv
    · exact h w (List.mem_of_getElem? hmem)
    · exact h v hv
  | munmap => exact h v (List.mem_of_mem_eraseIdx hv)

/-- A VMA that is not empty maps a page once it is mapped at all, so it owns none of an object
without a region. -/
theorem owns_nil_iff {v : Vma n} (hpages : v.pages ≠ 0) (hnone : regions s.cmbPool v.obj = []) :
    s.Owns v ↔ v.mapped = none := by
  constructor
  · intro h
    by_contra hmapped
    obtain ⟨pfn, hpfn⟩ := Option.ne_none_iff_exists'.mp hmapped
    have hpos : 0 < v.pages * pageSize := Nat.mul_pos (Nat.pos_of_ne_zero hpages) (by decide)
    obtain ⟨e, he, -⟩ := h (pfn * pageSize) ⟨pfn, hpfn, Nat.le_refl _, Nat.lt_add_of_pos_right hpos⟩
    rw [hnone] at he
    cases he
  · rintro hmapped p ⟨pfn, hpfn, -⟩
    rw [hmapped] at hpfn
    cases hpfn

/-- Dropping the last attachment leaves the mappings good exactly if the object has none. -/
theorem Wf.noStale_last (h : s.Wf) (hsized : s.Sized) (hgood : s.NoStaleMapping) {i : Nat}
    {o : Fin n} (hlast : (s.objects o).attachments = 1) :
    ((s.dropAttachment i o).released o).NoStaleMapping ↔ s.Unmapped o := by
  have hregions := h.regions_last i hlast
  rw [noStaleMapping_iff] at hgood ⊢
  constructor
  · intro hnew v hv ho
    refine (owns_nil_iff (hsized v hv).1 ?_).mp (hnew v hv)
    rw [hregions, if_pos ho]
  · intro hun v hv
    by_cases ho : v.obj = o
    · refine (owns_nil_iff (hsized v hv).1 ?_).mpr (hun v hv ho)
      rw [hregions, if_pos ho]
    · unfold Owns
      rw [hregions, if_neg ho]
      exact hgood v hv

/-- A call keeps the mappings good exactly if it does not drop the last attachment of an object
that is mapped. -/
theorem Wf.noStale_iff (h : s.Wf) (hsized : s.Sized) (hgood : s.NoStaleMapping) {op : Op n}
    {r : Result} (hmove : Moves s op r s') : s'.NoStaleMapping ↔ s.LastDetachUnmapped op := by
  have howns := noStaleMapping_iff.mp hgood
  cases hmove with
  | same hnull =>
    refine iff_of_true hgood ?_
    cases op with
    | detach i =>
      intro a ha hlive
      rw [hnull i rfl a ha] at hlive
      cases hlive
    | attach | mapDmaBuf | mmap | fault | munmap => trivial
  | first hidle halloc =>
    refine iff_of_true (noStaleMapping_iff.mpr fun v hv p hp => ?_) trivial
    obtain ⟨e, he, hep⟩ := howns v hv p hp
    exact ⟨e, regions_first halloc he, hep⟩
  | more | mapped => exact iff_of_true hgood trivial
  | @last i a c ha hlive hlast =>
    rw [h.noStale_last hsized hgood hlast]
    constructor
    · intro hun b hb _ _
      rw [ha] at hb
      cases hb
      exact hun
    · intro hcond
      exact hcond a ha (by rw [hlive]; rfl) hlast
  | @fewer i a c ha hlive hmore =>
    refine iff_of_true hgood ?_
    intro b hb _ hone
    rw [ha] at hb
    cases hb
    exact absurd hone hmore
  | mmap =>
    refine iff_of_true (noStaleMapping_iff.mpr fun v hv => ?_) trivial
    rcases List.mem_append.mp hv with hv | hv
    · exact howns v hv
    · rintro p ⟨pfn, hpfn, -⟩
      rw [List.mem_singleton.mp hv] at hpfn
      cases hpfn
  | @fault i w hw haddr =>
    refine iff_of_true (noStaleMapping_iff.mpr fun v hv => ?_) trivial
    rcases mem_of_mem_set hv with rfl | hv
    · rintro p ⟨pfn, hpfn, hp⟩
      cases hpfn
      obtain ⟨e, he, hcover⟩ := h.fault_owned haddr (hsized w (List.mem_of_getElem? hw)).2
      exact ⟨e, he, hcover p hp⟩
    · exact howns v hv
  | munmap =>
    exact iff_of_true (noStaleMapping_iff.mpr fun v hv => howns v (List.mem_of_mem_eraseIdx hv))
      trivial

end NvmeDev

open NvmeDev

/-- Over any calls on any number of objects: every page a process has mapped is in the region its
object has, in every state of the run, exactly if no object's last attachment is dropped while a
VMA of the object has its pages in the page table. -/
theorem noStaleMapping_iff_lastDetachUnmapped {s₀ s : NvmeDev n} {tr : List (NvmeDev n × Op n)}
    (hinit : (dmabuf n).init s₀) (hrun : (dmabuf n).Run s₀ tr s) :
    Throughout NoStaleMapping tr s ↔ Meets LastDetachUnmapped tr := by
  have hnone : s₀.vmas = [] := hinit.2.2
  have hsized : s₀.Sized := by
    intro v hv
    rw [hnone] at hv
    cases hv
  have hgood : s₀.NoStaleMapping := by
    intro v hv
    rw [hnone] at hv
    cases hv
  refine hrun.all_iff (B := fun s => s.Wf ∧ s.Sized) (fun _ _ => True) ⟨hinit.wf, hsized⟩ hgood
    ?_ ?_ ?_
  · rintro s op s' ⟨hwf, hsized⟩ - hstep
    obtain ⟨r, hmove⟩ := hwf.moves hstep
    exact ⟨hmove.wf hwf, hsized.step hmove⟩
  · rintro s op s' ⟨hwf, hsized⟩ hgood - hstep
    obtain ⟨r, hmove⟩ := hwf.moves hstep
    exact hwf.noStale_iff hsized hgood hmove
  · exact fun _ _ => trivial

/-- A process that unmaps before the device detaches. -/
theorem unmapped_before_detach : ∃ tr s, (dmabuf 1).Run (NvmeDev.sample 1) tr s ∧
    tr.map (fun p => (p.2, p.1.vmas)) = [(.attach 0 true (some 8192), []), (.mmap 0 1 false, []),
      (.fault 0 none, [⟨0, 1, false, none⟩]), (.munmap 0, [⟨0, 1, false, some 2⟩]),
      (.detach 0, [])] ∧
    Throughout NoStaleMapping tr s := by
  obtain ⟨tr, s, htr, hvmas⟩ : ∃ tr s, (dmabuf 1).trace (NvmeDev.sample 1)
        [.attach 0 true (some 8192), .mmap 0 1 false, .fault 0 none, .munmap 0, .detach 0] =
          some (tr, s) ∧
      tr.map (fun p => (p.2, p.1.vmas)) = [(.attach 0 true (some 8192), []), (.mmap 0 1 false, []),
        (.fault 0 none, [⟨0, 1, false, none⟩]), (.munmap 0, [⟨0, 1, false, some 2⟩]),
        (.detach 0, [])] :=
    ⟨_, _, rfl, rfl⟩
  have hrun := run_of_trace htr
  refine ⟨tr, s, hrun, hvmas, (noStaleMapping_iff_lastDetachUnmapped sample_init hrun).mpr ?_⟩
  rintro ⟨s, op⟩ hp
  cases op with
  | detach i =>
    have hmem := List.mem_map_of_mem (f := fun p => (p.2, p.1.vmas)) hp
    rw [hvmas] at hmem
    obtain ⟨-, hnone⟩ : i = 0 ∧ s.vmas = [] := by simpa using hmem
    intro a _ _ _ v hv
    rw [hnone] at hv
    cases hv
  | attach | mapDmaBuf | mmap | fault | munmap => trivial

/-- A process that does not: the page it has mapped is given to another object. -/
theorem mapping_outlives_region : ∃ s : NvmeDev 2, (dmabuf 2).Reachable s ∧
    ¬ s.NoStaleMapping ∧ ∃ v ∈ s.vmas, v.obj = 0 ∧ v.Maps 8192 ∧ regions s.cmbPool 0 = [] ∧
      regions s.cmbPool 1 = [⟨8192, 4096⟩] := by
  obtain ⟨tr, s, htr, hvmas, hown, hother⟩ : ∃ tr s, (dmabuf 2).trace (NvmeDev.sample 2)
        [.attach 0 true (some 8192), .mmap 0 1 false, .fault 0 none, .detach 0,
          .attach 1 true (some 8192)] = some (tr, s) ∧
      s.vmas = [⟨0, 1, false, some 2⟩] ∧ regions s.cmbPool 0 = [] ∧
      regions s.cmbPool 1 = [⟨8192, 4096⟩] :=
    ⟨_, _, rfl, rfl, rfl, rfl⟩
  have hmem : (⟨0, 1, false, some 2⟩ : Vma 2) ∈ s.vmas := by
    rw [hvmas]
    exact List.mem_singleton_self _
  have hmaps : (⟨0, 1, false, some 2⟩ : Vma 2).Maps 8192 := ⟨2, rfl, by decide⟩
  refine ⟨s, ⟨_, tr, sample_init, run_of_trace htr⟩, ?_, _, hmem, rfl, hmaps, hown, hother⟩
  intro hgood
  obtain ⟨e, he, -⟩ := (hgood _ hmem 8192 hmaps).1
  rw [hown] at he
  cases he

end LogDirect.Cmb
