import Koerix.AddrSpace.Cow
import Koerix.AddrSpace.Map

/-! # Creating and cloning

A new address space is empty and leaves the others alone. `clone` adds an
address space that shares every table below its PML4 with the old one. Nothing
can be written on either side until `triggerCow` has made copies, so the new
address space shows what the old one shows.
-/

namespace Koerix

open GenericPagingTable InDegree

namespace AddrSpace

variable {s s' : Vm} {live : List ℕ} {pos : Positions} {base : ℕ → ℕ} {n r : ℕ}

theorem update_pos_of_some (hpos : pos n = none) (p : ℕ × ℕ) (f : ℕ) (p' : ℕ × ℕ)
    (hf : pos f = some p') : Function.update pos n (some p) f = some p' := by
  have hfn : f ≠ n := by rintro rfl; simp [hpos] at hf
  rwa [Function.update_of_ne hfn]

theorem Settled.create_frame (h : Settled base s live pos)
    (hc : AddrSpace.create s = some (n, s')) :
    (∀ g, g ≠ n → s'.mem g = s.mem g) ∧ Vacant s pos n ∧
      s'.pageMap.totalPages = s.pageMap.totalPages ∧ s'.kernelPml4 = s.kernelPml4 := by
  obtain ⟨s₁, ha, hpm, hk, hmem, -⟩ := mem_create hc
  obtain ⟨hmem₁, hk₁, -, -, ht₁, -⟩ := Vm.alloc_eq_some ha
  obtain ⟨-, -, hvac, -⟩ := h.alloc ha
  exact ⟨fun g hg => (hmem g hg).trans (congrFun hmem₁ g),
    hvac.congr fun u _ => (congrFun hmem₁ u).symm, by rw [hpm, ht₁], by rw [hk, hk₁]⟩

/-- What `create` does: the other address spaces show what they showed, the new one nothing. -/
theorem Settled.create_reshaped (h : Settled base s live pos)
    (hc : AddrSpace.create s = some (n, s')) :
    Reshaped s s' pos (Function.update pos n (some (0, 0))) ∧
      ∀ virt < userPages, view s' n virt = none := by
  obtain ⟨hpos, -, -, -, -, hempty⟩ := h.createHeld hc
  obtain ⟨hmem, hvac, htotal, hkernel⟩ := h.create_frame hc
  have hent : ∀ {u j d q}, Slot pos u j d q → s'.entry u j = s.entry u j :=
    fun hu => Vm.entry_congr (hmem _ (by rintro rfl; simpa [hpos] using hu.pos_eq))
  refine ⟨{
    mono := update_pos_of_some hpos (0, 0)
    alike := fun f d q hf hd => ?_
    total := htotal
    kernel := hkernel }, fun virt hv => ?_⟩
  · refine h.alike htotal (fun u j _ _ hu => by rw [hent hu])
      (fun u j _ _ hu _ => by simp [hent hu])
      (fun u j _ hu hp => hmem _ (hvac u j _ _ hu hp)) (by omega) hd hf (Or.inl rfl)
  · have hi : tableIndex 3 virt < 256 := tableIndex_lt_of_le hv le_rfl
    simp [view, walk, walkFrom_succ, hempty _ hi]

theorem clone_eq_some (h : clone r s = some (n, s')) : ∃ s₁, create s = some (n, s₁) ∧
    s' = (List.range 256).foldl (cloneEntry r n) s₁ := by
  simp only [clone, Option.bind_eq_bind, Option.bind_eq_some_iff, Option.pure_def,
    Option.some.injEq, Prod.mk.injEq, Prod.exists] at h
  obtain ⟨f, s₁, hc, rfl, rfl⟩ := h
  exact ⟨s₁, hc, rfl⟩

theorem Settled.clone_copied (h : Settled base s live pos) (hr : r ∈ live) {s₁ : Vm}
    (hcr : AddrSpace.create s = some (n, s₁)) :
    r ≠ n ∧ CopiedUpTo s₁ ((List.range 256).foldl (cloneEntry r n) s₁) r n 256 := by
  obtain ⟨hpos, -, -, -, h₁, hempty⟩ := h.createHeld hcr
  have hroot : pos r = some (0, 0) := h.root.mpr ⟨hr, rfl⟩
  have hrn : r ≠ n := by rintro rfl; simp [hpos] at hroot
  refine ⟨hrn, copiedUpTo_foldl_cloneEntry hrn (fun i hi hp => ?_) hempty⟩
  exact ((h₁.entries ⟨hroot, by decide, hi⟩ hp).upper (by decide)).2.1

/-- What `clone` does to the address spaces. -/
theorem Settled.clone (h : Settled base s live pos) (hr : r ∈ live)
    (hfew : live.length + 1 < 256) (hc : AddrSpace.clone r s = some (n, s')) :
    pos n = none ∧ Settled base s' (live ++ [n]) (Function.update pos n (some (0, 0))) ∧
      Reshaped s s' pos (Function.update pos n (some (0, 0))) ∧
      ∀ virt < userPages, view s' n virt = view s r virt := by
  obtain ⟨s₁, hcr, rfl⟩ := clone_eq_some hc
  obtain ⟨hpos, hb, hn, hvac, h₁, -⟩ := h.createHeld hcr
  have hroot : pos r = some (0, 0) := h.root.mpr ⟨hr, rfl⟩
  obtain ⟨hrn, hcopy⟩ := h.clone_copied hr hcr
  have hdup := h₁.duplicate (live ++ [n]) hroot (by decide) hn hpos hvac
    h₁.held_fresh.symm.le hcopy (by simp)
  -- up to the fresh frame the copy starts from the old memory
  obtain ⟨hmem, hvac', htotal, hkernel⟩ := h.create_frame hcr
  have hent : ∀ g j, g ≠ n → s₁.entry g j = s.entry g j := fun g _ hg => Vm.entry_congr (hmem g hg)
  have hne : ∀ {u j d q}, Slot pos u j d q → u ≠ n := by
    rintro u j d q hu rfl
    simpa [hpos] using hu.pos_eq
  have hsame : ∀ u j, u ≠ n → SameBits (s.entry u j)
      (((List.range 256).foldl (cloneEntry r n) s₁).entry u j) ∧
      ppn (((List.range 256).foldl (cloneEntry r n) s₁).entry u j) = ppn (s.entry u j) := by
    intro u j hu
    rw [← hent u j hu]
    rcases eq_or_ne u r with rfl | hur
    · exact hcopy.sameBits_old j
    · rw [Vm.entry_congr (hcopy.other u hur hu)]
      exact ⟨.refl _, rfl⟩
  have halike : ∀ {f f' d q}, pos f = some (d, q) → d < 4 → (f' = f ∨
      TableCopy s ((List.range 256).foldl (cloneEntry r n) s₁) (entryCount (3 - d)) f f') →
      Alike s ((List.range 256).foldl (cloneEntry r n) s₁) (4 - d) f f' := by
    intro f f' d q hf hd hf'
    refine h.alike (hcopy.total.trans htotal) (fun u j _ _ hu => (hsame u j (hne hu)).1)
      (fun u j _ _ hu _ => Or.inl (hsame u j (hne hu)).2) ?_ (by omega) hd hf hf'
    intro u j q' hu hp
    have hpn := hvac' u j 3 q' hu hp
    have hpr : ppn (s.entry u j) ≠ r := h.page_ne_table hu hp hroot (by decide)
    rw [hcopy.other _ hpr hpn, hmem _ hpn]
  refine ⟨hpos, h₁.newRoot hb hfew hdup, {
    mono := update_pos_of_some hpos (0, 0)
    alike := fun f d q hf hd => halike hf hd (Or.inl rfl)
    total := by rw [hcopy.total, htotal]
    kernel := by rw [hcopy.kernel, hkernel] }, fun virt hv => ?_⟩
  refine (halike hroot (by decide) (Or.inr fun j hj => ?_)).view_eq hv
  rw [← hent r j hrn]
  exact hcopy.tableCopy j hj

end AddrSpace

end Koerix
