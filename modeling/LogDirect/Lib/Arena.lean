import LogDirect.Lib.Extents
import Mathlib.Data.List.Pairwise

/-!
# An arena of regions

An allocator hands out regions of one address range and takes them back. Each
region remembers for whom it was handed out. An `Arena` carries what every
allocator keeps: its regions lie in the range, begin at a multiple of the unit, are
not empty and do not overlap. So a base names one region, and an address has at
most one owner.
-/

namespace Lib

/-- A region and the one it was handed out for. -/
structure Region (ω : Type) where
  owner : ω
  extent : Extent
  deriving DecidableEq

/-- The regions do not overlap. -/
def Region.Apart {ω : Type} (a b : Region ω) : Prop := a.extent.Apart b.extent

instance {ω : Type} : Std.Symm (@Region.Apart ω) where
  symm _ _ := Or.symm

/-- The regions handed out of `range`. -/
structure Arena (ω : Type) (unit : Nat) where
  range : Extent
  regions : List (Region ω)
  inside : ∀ r ∈ regions, r.extent.Within range
  nonempty : ∀ r ∈ regions, 0 < r.extent.size
  aligned : ∀ r ∈ regions, unit ∣ r.extent.base
  apart : regions.Pairwise Region.Apart

namespace Arena

variable {ω : Type} {unit : Nat} (a : Arena ω unit)

/-- The extent can be handed out. -/
def Fits (e : Extent) : Prop :=
  0 < e.size ∧ e.Within a.range ∧ unit ∣ e.base ∧ ∀ r ∈ a.regions, e.Apart r.extent

instance (e : Extent) : Decidable (a.Fits e) := inferInstanceAs (Decidable (_ ∧ _ ∧ _ ∧ _))

variable {a} {e : Extent}

theorem Fits.inside (h : a.Fits e) (o : ω) :
    ∀ r ∈ (⟨o, e⟩ :: a.regions : List (Region ω)), r.extent.Within a.range := by
  rw [List.forall_mem_cons]
  exact ⟨h.2.1, a.inside⟩

theorem Fits.nonempty (h : a.Fits e) (o : ω) :
    ∀ r ∈ (⟨o, e⟩ :: a.regions : List (Region ω)), 0 < r.extent.size := by
  rw [List.forall_mem_cons]
  exact ⟨h.1, a.nonempty⟩

theorem Fits.aligned (h : a.Fits e) (o : ω) :
    ∀ r ∈ (⟨o, e⟩ :: a.regions : List (Region ω)), unit ∣ r.extent.base := by
  rw [List.forall_mem_cons]
  exact ⟨h.2.2.1, a.aligned⟩

theorem Fits.apart (h : a.Fits e) (o : ω) :
    (⟨o, e⟩ :: a.regions : List (Region ω)).Pairwise Region.Apart := by
  rw [List.pairwise_cons]
  exact ⟨h.2.2.2, a.apart⟩

variable (a)

/-- The extent is handed out for `o`. -/
def alloc (o : ω) (e : Extent) (h : a.Fits e) : Arena ω unit where
  range := a.range
  regions := ⟨o, e⟩ :: a.regions
  inside := h.inside o
  nonempty := h.nonempty o
  aligned := h.aligned o
  apart := h.apart o

/-- Nothing is handed out. -/
def empty (range : Extent) : Arena ω unit where
  range := range
  regions := []
  inside := List.forall_mem_nil _
  nonempty := List.forall_mem_nil _
  aligned := List.forall_mem_nil _
  apart := List.Pairwise.nil

/-- The regions that do not begin at the base. -/
def others (base : Nat) : List (Region ω) := a.regions.filter fun r => r.extent.base ≠ base

variable {a}

theorem mem_of_mem_others {base : Nat} {r : Region ω} (h : r ∈ a.others base) : r ∈ a.regions :=
  List.mem_of_mem_filter h

variable (a)

/-- The region that begins at the base is taken back. -/
def free (base : Nat) : Arena ω unit where
  range := a.range
  regions := a.others base
  inside := fun r hr => a.inside r (mem_of_mem_others hr)
  nonempty := fun r hr => a.nonempty r (mem_of_mem_others hr)
  aligned := fun r hr => a.aligned r (mem_of_mem_others hr)
  apart := a.apart.filter _

section

variable [DecidableEq ω]

/-- What was handed out for `o`. -/
def owned (o : ω) : List Extent := (a.regions.filter fun r => r.owner = o).map Region.extent

variable {a}

theorem mem_owned {o : ω} : e ∈ a.owned o ↔ ⟨o, e⟩ ∈ a.regions := by
  unfold owned
  simp only [List.mem_map, List.mem_filter, decide_eq_true_eq]
  constructor
  · rintro ⟨r, ⟨hr, rfl⟩, rfl⟩
    exact hr
  · intro h
    exact ⟨_, ⟨h, rfl⟩, rfl⟩

theorem owned_alloc (h : a.Fits e) (o o' : ω) :
    (a.alloc o e h).owned o' = if o = o' then e :: a.owned o' else a.owned o' := by
  unfold owned alloc
  split <;> simp [*]

/-- Two regions that hold one address are one region. -/
theorem region_unique {r r' : Region ω} (hr : r ∈ a.regions) (hr' : r' ∈ a.regions) {p : Nat}
    (hp : r.extent.Holds p) (hp' : r'.extent.Holds p) : r = r' := by
  by_contra hne
  exact (a.apart.forall hr hr' hne).not_holds hp hp'

/-- A base names one region. -/
theorem base_unique {r r' : Region ω} (hr : r ∈ a.regions) (hr' : r' ∈ a.regions)
    (h : r.extent.base = r'.extent.base) : r = r' := by
  have hpos := a.nonempty r hr
  have hpos' := a.nonempty r' hr'
  refine region_unique hr hr' (p := r.extent.base) ⟨Nat.le_refl _, ?_⟩ ⟨Nat.le_of_eq h.symm, ?_⟩
  · exact Nat.lt_add_of_pos_right hpos
  · rw [h]
    exact Nat.lt_add_of_pos_right hpos'

/-- Taking a region back takes nothing else. -/
theorem owned_free_of_ne {o o' : ω} (he : e ∈ a.owned o) (hne : o' ≠ o) :
    (a.free e.base).owned o' = a.owned o' := by
  have hkeep : ∀ r ∈ a.regions, r.owner = o' → r.extent.base ≠ e.base := by
    intro r hr howner hbase
    have heq := base_unique hr (mem_owned.mp he) hbase
    rw [heq] at howner
    exact hne howner.symm
  unfold owned free others
  rw [List.filter_filter]
  congr 1
  refine List.filter_congr fun r hr => ?_
  by_cases howner : r.owner = o'
  · simp [howner, hkeep r hr howner]
  · simp [howner]

/-- The one who had that region only has none. -/
theorem owned_free_self {o : ω} (he : a.owned o = [e]) : (a.free e.base).owned o = [] := by
  rw [List.eq_nil_iff_forall_not_mem]
  intro x hx
  rw [mem_owned] at hx
  obtain ⟨hmem, hbase⟩ := List.mem_filter.mp hx
  have hx : x ∈ a.owned o := mem_owned.mpr hmem
  rw [he, List.mem_singleton] at hx
  simp [hx] at hbase

end

end Arena

end Lib
