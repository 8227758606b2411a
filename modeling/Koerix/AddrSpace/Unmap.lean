import Koerix.AddrSpace.Beside

/-! # Unmapping a page that is not mapped

`unmap` asks whether the page and its tables exist by comparing their addresses
with null. `resolve` computes these addresses from the frame numbers of the
entries, present or not, and an address in the identity mapping is never null. So
every call frees a frame and clears an entry, whether the page is mapped or not.
-/

namespace Koerix

open GenericPagingTable

namespace AddrSpace

variable {pml4 virt d f g : ℕ} {s s' : Vm} {tables : ℕ → ℕ}

theorem counter_of_free (hf : s.free f = some s') (hlt : f < s.pageMap.totalPages) :
    (s'.pageMap.pagemap f).toNat + 1 = (s.pageMap.pagemap f).toNat := by
  obtain ⟨-, -, hz, -, hp⟩ := Vm.free_eq_some hf hlt
  have hpos : 1 ≤ (s.pageMap.pagemap f).toNat :=
    Nat.pos_of_ne_zero fun h0 => hz (UInt8.toNat_inj.mp h0)
  rw [hp, Function.update_self, UInt8.toNat_sub_of_le _ _ (by simpa [UInt8.le_iff_toNat_le])]
  exact Nat.sub_add_cancel hpos

theorem counter_le_of_free (hf : s.free f = some s') :
    (s'.pageMap.pagemap g).toNat ≤ (s.pageMap.pagemap g).toNat := by
  rcases eq_or_ne g f with rfl | hne
  · rcases Nat.lt_or_ge g s.pageMap.totalPages with hlt | hge
    · have := counter_of_free hf hlt
      omega
    · rw [Vm.free, PageMap.free_of_le hge] at hf
      cases hf
      exact le_rfl
  · rw [pagemap_of_free hf hne]

theorem counter_le_of_clearFrom (hc : clearFrom tables virt d s = some s') :
    (s'.pageMap.pagemap g).toNat ≤ (s.pageMap.pagemap g).toNat := by
  induction d generalizing s with
  | zero =>
    cases hc
    exact le_rfl
  | succ d ih =>
    rw [clearFrom] at hc
    split_ifs at hc
    · cases hc
      exact le_rfl
    · obtain ⟨s₁, hs₁, hc⟩ := Option.bind_eq_some_iff.mp hc
      have hfree := counter_le_of_free (g := g) hs₁
      exact (ih hc).trans hfree

theorem unmap_eq_some (hu : unmap pml4 virt s = some s') :
    (∀ d, 1 ≤ d → d ≤ 3 → chase s pml4 virt d < s.pageMap.totalPages) ∧
      ∃ s₁, s.free (chase s pml4 virt 4) = some s₁ ∧
        clearFrom (chase s pml4 virt) virt 3 s₁ = some s' := by
  simp only [unmap, Option.bind_eq_bind, Option.bind_eq_some_iff] at hu
  obtain ⟨tables, hres, s₁, hs₁, hc⟩ := hu
  rw [resolve] at hres
  split_ifs at hres with hall
  cases hres
  refine ⟨fun d h1 h3 => ?_, s₁, hs₁, hc⟩
  have hd := List.all_eq_true.mp hall d (by simp; omega)
  simpa using hd

/-- Nothing that the processor or the kernel can observe is different. -/
structure Unchanged (s s' : Vm) : Prop where
  translation : ∀ r v, AddrSpace.translate s' r v = AddrSpace.translate s r v
  counter : ∀ f, s'.pageMap.pagemap f = s.pageMap.pagemap f
  mem : ∀ f i, s'.mem f i = s.mem f i

/-- `unmap` never returns without a change, not even for a page that is not mapped: the frame
that it takes for the page loses a reference, or the entry that names it is cleared. -/
theorem not_unchanged_of_unmap (s : Vm) (pml4 virt : ℕ) :
    ¬ ∃ s', unmap pml4 virt s = some s' ∧ Unchanged s s' := by
  rintro ⟨s', hu, h⟩
  obtain ⟨hlt, s₁, hs₁, hc⟩ := unmap_eq_some hu
  rcases Nat.lt_or_ge (chase s pml4 virt 4) s.pageMap.totalPages with hin | hout
  · have hless := counter_of_free hs₁ hin
    have hle := counter_le_of_clearFrom (g := chase s pml4 virt 4) hc
    rw [h.counter] at hle
    omega
  · -- the number of a frame beyond the physical memory is not read from an empty entry
    have hzero : s.entry (chase s pml4 virt 3) (tableIndex 0 virt) = 0 :=
      (h.mem _ _).symm.trans (clearFrom_self hc)
    have hpage : chase s pml4 virt 4 = 0 := by
      rw [chase, hzero]
      exact ppn_zero
    have := hlt 1 le_rfl (by decide)
    omega

/-- Eight frames, the first of them reserved, and an address space that is empty. -/
def emptySpace : Vm where
  mem := fun _ _ => 0
  pageMap :=
    { totalPages := 8
      fits := by decide
      usablePages := 7
      freePageCount := 6
      usedPages := 1
      pagemap := fun f => if f = 0 then 0xff else if f = 1 then 1 else 0 }
  kernelPml4 := none

/-- Unmapping a page of an empty address space takes four references from frame 0. -/
theorem unmap_emptySpace : AddrSpace.translate emptySpace 1 5 = none ∧
    ∃ s', unmap 1 5 emptySpace = some s' ∧ s'.pageMap.pagemap 0 = 251 ∧
      ¬ Unchanged emptySpace s' := by
  obtain ⟨s', hs'⟩ := Option.isSome_iff_exists.mp
    (show (unmap 1 5 emptySpace).isSome from by decide +kernel)
  have hcount : (unmap 1 5 emptySpace).map (fun s => s.pageMap.pagemap 0) = some 251 := by
    decide +kernel
  rw [hs', Option.map_some, Option.some.injEq] at hcount
  refine ⟨by decide +kernel, s', hs', hcount, fun h => ?_⟩
  have h0 := h.counter 0
  rw [hcount] at h0
  exact absurd h0 (by decide)

end AddrSpace

end Koerix
