import Koerix.AddrSpace.Tree

/-! # Frames beside the tree

The kernel's tables form a tree over a region of its pages. Mapping and unmapping
a page of the region, and writing to it, changes the frames of the tree and takes
free frames. Frames in use that are not on the tree keep their contents and their
counters, and an entry of the PML4 changes only if it comes into use or goes out
of use.
-/

namespace Koerix

open GenericPagingTable

namespace AddrSpace

variable {R : Set ℕ} {pml4 v v' d j t n f i level phys : ℕ} {s s' s'' : Vm} {e : GenericPagingTable}
  {tables : ℕ → ℕ} {flags : MapFlags} {grow : Bool}

theorem frameAt_of_clear (h : frameAt (s.setEntry t i 0) pml4 v d = some f) :
    frameAt s pml4 v d = some f := by
  induction d generalizing f with
  | zero => exact h
  | succ d ih =>
    obtain ⟨u, hu, hp, hppn⟩ := frameAt_succ_eq_some_iff.mp h
    have hne : u ≠ t ∨ tableIndex (3 - d) v ≠ i := by
      by_contra hc
      obtain ⟨rfl, rfl⟩ : u = t ∧ tableIndex (3 - d) v = i := by tauto
      rw [Vm.entry_setEntry_self, show (0 : GenericPagingTable) = 0#64 from rfl, present_zero] at hp
      cases hp
    rw [Vm.entry_setEntry_of_ne hne] at hp hppn
    exact frameAt_succ_eq_some_iff.mpr ⟨u, ih hu, hp, hppn⟩

theorem frameAt_of_clearFrom (hc : clearFrom tables v' d s = some s')
    (h : frameAt s' pml4 v j = some f) : frameAt s pml4 v j = some f := by
  induction d generalizing s with
  | zero =>
    cases hc
    exact frameAt_of_clear h
  | succ d ih =>
    rw [clearFrom] at hc
    split_ifs at hc
    · cases hc
      exact frameAt_of_clear h
    · obtain ⟨s₁, hs₁, hc⟩ := Option.bind_eq_some_iff.mp hc
      have hf := ih hc
      rw [frameAt_congr_mem fun k _ u _ => congrFun (Vm.free_frame hs₁).1 u] at hf
      exact frameAt_of_clear hf

theorem frameAt_of_unmap (hu : unmap pml4 v' s = some s') (h : frameAt s' pml4 v j = some f) :
    frameAt s pml4 v j = some f := by
  simp only [unmap, Option.bind_eq_bind, Option.bind_eq_some_iff] at hu
  obtain ⟨tables, -, s₁, hs₁, hc⟩ := hu
  have hf := frameAt_of_clearFrom hc h
  rwa [frameAt_congr_mem fun k _ u _ => congrFun (Vm.free_frame hs₁).1 u] at hf

namespace Tree

/-- A table that `map` adds is the only new frame on the tree. -/
theorem frameAt_of_addTable (h : Tree R pml4 s) (hv : v ∈ R) (hv' : v' ∈ R)
    (hl : d + (level + 1) = 3) (hj : j ≤ 4) (ht : frameAt s pml4 v d = some t)
    (hp : present (s.entry t (tableIndex (level + 1) v)) = false) (ha : s.alloc = some (n, s'))
    (hf : frameAt ((s'.setFrame n fun _ => 0).setEntry t (tableIndex (level + 1) v) (ofTable n))
      pml4 v' j = some f) : frameAt s pml4 v' j = some f ∨ f = n := by
  obtain ⟨hrest, hspare, hframe⟩ := h.alloc (v := v) ha fun _ => 0
  obtain ⟨hmem, -, hn, hz, -, -⟩ := Vm.alloc_eq_some ha
  have hlevel : 3 - d = level + 1 := by omega
  have hppn : ppn (ofTable n) = n := by
    rw [ppn_ofTable, Nat.mod_eq_of_lt (lt_of_lt_of_le hn s.pageMap.fits)]
  have hnt : t ≠ n := by
    rintro rfl
    exact (h.used hv (by omega) ht).2 hz
  have hfree : present ((s'.setFrame n fun _ => 0).entry t (tableIndex (3 - d) v)) = false := by
    rw [Vm.entry_setFrame_of_ne hnt, Vm.entry_congr (congrFun hmem t), hlevel, hp]
  rw [← hlevel, hrest.tree.unique.distinct.frameAt_link hv hv' (by omega) hj
    ((hframe v hv d (by omega)).trans ht) hfree hnt.symm (fun _ i => by simp [Vm.entry]) (by simp)
    hppn, hframe v' hv' j hj] at hf
  exact hf.imp_right fun h => h.2.2

/-- The frames that `map` adds to the tree were free, up to the page itself. -/
theorem frameAt_of_mapFrom {flags : MapFlags} (h : Tree R pml4 s) (hv : v ∈ R) (hv' : v' ∈ R)
    (hl : d + level = 3) (hj : j ≤ 4) (ht : frameAt s pml4 v d = some t)
    (hun : frameAt s pml4 v 4 = none) (hphys : Spare R pml4 phys s)
    (hm : AddrSpace.mapFrom v phys flags level t s = some s')
    (hf : frameAt s' pml4 v' j = some f) :
    frameAt s pml4 v' j = some f ∨ s.pageMap.pagemap f = 0 ∨ f = phys := by
  induction level generalizing d t s with
  | zero =>
    obtain rfl : d = 3 := by omega
    have hppn : ppn (ofPage phys flags) = phys := by
      rw [ppn_ofPage, Nat.mod_eq_of_lt (lt_of_lt_of_le hphys.lt s.pageMap.fits)]
    have hnt : phys ≠ t := by
      rintro rfl
      exact hphys.off v hv 3 (by decide) ht
    rw [AddrSpace.mapFrom] at hm
    split_ifs at hm with hp
    cases hm
    rcases (h.unique.distinct.frameAt_link hv hv' (by decide) hj ht (by simpa using hp) hnt
      (fun h3 => absurd h3 (lt_irrefl 3)) (by simp) hppn).mp hf with hold | ⟨-, -, rfl⟩
    · exact Or.inl hold
    · exact Or.inr (Or.inr rfl)
  | succ level ih =>
    rcases hp : present (s.entry t (tableIndex (level + 1) v)) with _ | _
    · simp only [AddrSpace.mapFrom, hp, Bool.false_eq_true, if_false, Option.bind_eq_bind,
        Option.bind_eq_some_iff, Prod.exists] at hm
      obtain ⟨n, s₁, ha, hm⟩ := hm
      obtain ⟨-, -, -, hz, -, hpm⟩ := Vm.alloc_eq_some ha
      obtain ⟨hrest, hframe, hun', hphys'⟩ := h.addTable hv hl ht hp hphys ha
      rw [Vm.entry_setEntry_self] at hm
      rcases ih hrest.tree (by omega) hframe hun' hphys' hm with hold | hfree | rfl
      · rcases h.frameAt_of_addTable hv hv' hl hj ht hp ha hold with hold | rfl
        · exact Or.inl hold
        · exact Or.inr (Or.inl hz)
      · refine Or.inr (Or.inl ?_)
        rw [Vm.pageMap_setEntry, Vm.pageMap_setFrame, hpm] at hfree
        rcases eq_or_ne f n with rfl | hne
        · simp at hfree
        · rwa [Function.update_of_ne hne] at hfree
      · exact Or.inr (Or.inr rfl)
    · simp only [AddrSpace.mapFrom, hp, if_true] at hm
      refine ih h (by omega) (frameAt_succ_eq_some_iff.mpr ⟨t, ht, ?_⟩) hun hphys hm
      rw [show 3 - d = level + 1 by omega]
      exact ⟨hp, rfl⟩

end Tree

/-- `map` below an absent entry changes no other entry of a frame in use. -/
theorem mapFrom_absent (ht : s.pageMap.pagemap t ≠ 0)
    (hp : present (s.entry t (tableIndex level v)) = false)
    (hm : mapFrom v phys flags level t s = some s') :
    s'.kernelPml4 = s.kernelPml4 ∧ s'.pageMap.totalPages = s.pageMap.totalPages ∧
      ∀ g, s.pageMap.pagemap g ≠ 0 → s'.pageMap.pagemap g = s.pageMap.pagemap g ∧
        ∀ i, s'.entry g i = s.entry g i ∨ g = t ∧ i = tableIndex level v := by
  induction level generalizing t s with
  | zero =>
    simp only [mapFrom, hp, Bool.false_eq_true, if_false, Option.some.injEq] at hm
    subst hm
    refine ⟨rfl, rfl, fun g _ => ⟨rfl, fun i => ?_⟩⟩
    by_cases hgi : g = t ∧ i = tableIndex 0 v
    · exact Or.inr hgi
    · exact Or.inl (Vm.entry_setEntry_of_ne (by tauto))
  | succ level ih =>
    simp only [mapFrom, hp, Bool.false_eq_true, if_false, Option.bind_eq_bind,
      Option.bind_eq_some_iff, Prod.exists] at hm
    obtain ⟨n, s₁, ha, hm⟩ := hm
    obtain ⟨hmem, hker, hn, hz, htot, hpm⟩ := Vm.alloc_eq_some ha
    have hppn : ppn (ofTable n) = n := by
      rw [ppn_ofTable, Nat.mod_eq_of_lt (lt_of_lt_of_le hn s.pageMap.fits)]
    rw [Vm.entry_setEntry_self, hppn] at hm
    set s₂ := (s₁.setFrame n fun _ => 0).setEntry t (tableIndex (level + 1) v) (ofTable n) with hs₂
    have hne : t ≠ n := fun he => ht (he ▸ hz)
    have hp₂ : present (s₂.entry n (tableIndex level v)) = false := by
      rw [hs₂, Vm.entry_setEntry_of_ne (Or.inl hne.symm)]
      simp [Vm.entry]
    have hpm₂ : s₂.pageMap.pagemap = Function.update s.pageMap.pagemap n 1 := hpm
    obtain ⟨hker', htot', hrest⟩ := ih (by simp [hpm₂]) hp₂ hm
    refine ⟨hker'.trans hker, htot'.trans htot, fun g hg => ?_⟩
    have hgn : g ≠ n := fun he => hg (he ▸ hz)
    have hg₂ : s₂.pageMap.pagemap g = s.pageMap.pagemap g := by
      rw [hpm₂, Function.update_of_ne hgn]
    obtain ⟨hcount, hentry⟩ := hrest g (hg₂ ▸ hg)
    refine ⟨hcount.trans hg₂, fun i => ?_⟩
    by_cases hgi : g = t ∧ i = tableIndex (level + 1) v
    · exact Or.inr hgi
    · left
      rw [(hentry i).resolve_right fun h => hgn h.1, hs₂, Vm.entry_setEntry_of_ne (by tauto),
        Vm.entry_setFrame_of_ne hgn, Vm.entry_congr (congrFun hmem g)]

theorem map_entry (hused : ∀ k ≤ 3, ∀ u, frameAt s pml4 v k = some u → s.pageMap.pagemap u ≠ 0)
    (hm : map pml4 v phys flags s = some s') :
    s'.kernelPml4 = s.kernelPml4 ∧ s'.pageMap.totalPages = s.pageMap.totalPages ∧
      ∃ k u, k ≤ 3 ∧ frameAt s pml4 v k = some u ∧
        present (s.entry u (tableIndex (3 - k) v)) = false ∧
        ∀ g, s.pageMap.pagemap g ≠ 0 → s'.pageMap.pagemap g = s.pageMap.pagemap g ∧
          ∀ i, s'.entry g i = s.entry g i ∨ g = u ∧ i = tableIndex (3 - k) v := by
  obtain ⟨k, u, -, hk, hu, hp, hm⟩ := mapFrom_descend (d := 0) rfl rfl hm
  obtain ⟨hker, htot, hrest⟩ := mapFrom_absent (hused k hk u hu) hp hm
  exact ⟨hker, htot, k, u, hk, hu, hp, hrest⟩

theorem pagemap_of_free (hf : s.free f = some s') (hne : n ≠ f) :
    s'.pageMap.pagemap n = s.pageMap.pagemap n := by
  rcases Nat.lt_or_ge f s.pageMap.totalPages with hlt | hge
  · obtain ⟨-, -, -, -, hp⟩ := Vm.free_eq_some hf hlt
    rw [hp, Function.update_of_ne hne]
  · rw [Vm.free, PageMap.free_of_le hge] at hf
    cases hf
    rfl

theorem entry_clear (s : Vm) (t i g j : ℕ) : (s.setEntry t i 0).entry g j = s.entry g j ∨
    (s.setEntry t i 0).entry g j = 0 ∧ g = t ∧ j = i := by
  by_cases hgi : g = t ∧ j = i
  · obtain ⟨rfl, rfl⟩ := hgi
    exact Or.inr ⟨Vm.entry_setEntry_self, rfl, rfl⟩
  · exact Or.inl (Vm.entry_setEntry_of_ne (not_and_or.mp hgi))

/-- The loop of `unmap` clears entries on the path, and releases tables on it. -/
theorem clearFrom_entry (hc : clearFrom tables v d s = some s') :
    s'.kernelPml4 = s.kernelPml4 ∧ s'.pageMap.totalPages = s.pageMap.totalPages ∧
      (∀ g, (∀ k, 1 ≤ k → k ≤ d → g ≠ tables k) →
        s'.pageMap.pagemap g = s.pageMap.pagemap g) ∧
      ∀ g i, s'.entry g i = s.entry g i ∨
        s'.entry g i = 0 ∧ ∃ k ≤ d, g = tables k ∧ i = tableIndex (3 - k) v := by
  induction d generalizing s with
  | zero =>
    cases hc
    refine ⟨rfl, rfl, fun _ _ => rfl, fun g i => (entry_clear s _ _ g i).imp_right ?_⟩
    rintro ⟨hz, hg, hi⟩
    exact ⟨hz, 0, le_rfl, hg, hi⟩
  | succ d ih =>
    have hcut := fun g i => entry_clear s (tables (d + 1)) (tableIndex (3 - (d + 1)) v) g i
    rw [clearFrom] at hc
    split_ifs at hc with hcheck
    · cases hc
      refine ⟨rfl, rfl, fun _ _ => rfl, fun g i => (hcut g i).imp_right ?_⟩
      rintro ⟨hz, hg, hi⟩
      exact ⟨hz, d + 1, le_rfl, hg, hi⟩
    · obtain ⟨s₁, hs₁, hc⟩ := Option.bind_eq_some_iff.mp hc
      obtain ⟨hmem₁, hker₁, htot₁⟩ := Vm.free_frame hs₁
      obtain ⟨hker, htot, hcount, hentry⟩ := ih hc
      refine ⟨hker.trans hker₁, htot.trans htot₁, fun g hg => ?_, fun g i => ?_⟩
      · rw [hcount g fun k h1 hk => hg k h1 (by omega),
          pagemap_of_free hs₁ (hg (d + 1) (by omega) le_rfl)]
        rfl
      · rcases hentry g i with he | ⟨hz, k, hk, hg, hi⟩
        · rw [he, Vm.entry_congr (congrFun hmem₁ g)]
          refine (hcut g i).imp_right ?_
          rintro ⟨hz, hg, hi⟩
          exact ⟨hz, d + 1, le_rfl, hg, hi⟩
        · exact Or.inr ⟨hz, k, by omega, hg, hi⟩

theorem clearFrom_self (hc : clearFrom tables v d s = some s') :
    s'.entry (tables d) (tableIndex (3 - d) v) = 0 := by
  cases d with
  | zero =>
    cases hc
    exact Vm.entry_setEntry_self
  | succ d =>
    rw [clearFrom] at hc
    split_ifs at hc
    · cases hc
      exact Vm.entry_setEntry_self
    · obtain ⟨s₁, hs₁, hc⟩ := Option.bind_eq_some_iff.mp hc
      have hentry := (clearFrom_entry hc).2.2.2 (tables (d + 1)) (tableIndex (3 - (d + 1)) v)
      rw [Vm.entry_congr (congrFun (Vm.free_frame hs₁).1 _), Vm.entry_setEntry_self] at hentry
      exact hentry.elim id And.left

/-- A page is not mapped after `unmap`, whatever the tables were before. -/
theorem frameAt_unmap_self (hu : unmap pml4 v s = some s') : frameAt s' pml4 v 4 = none := by
  cases hf : frameAt s' pml4 v 4 with
  | none => rfl
  | some f =>
    have hold := frameAt_of_unmap hu hf
    simp only [unmap, Option.bind_eq_bind, Option.bind_eq_some_iff] at hu
    obtain ⟨tables, hres, s₁, hs₁, hc⟩ := hu
    obtain rfl : tables = chase s pml4 v := by
      rw [resolve] at hres
      split_ifs at hres
      exact (Option.some.inj hres).symm
    obtain ⟨t, ht, hp, -⟩ := frameAt_succ_eq_some_iff.mp hf
    have ht' := frameAt_of_clearFrom hc ht
    rw [frameAt_congr_mem fun k _ u _ => congrFun (Vm.free_frame hs₁).1 u,
      chase_eq hold (by decide), Option.some.injEq] at ht'
    rw [← ht', clearFrom_self hc] at hp
    exact absurd hp (by decide)

/-- The loop of `unmap` stops below a table in which an entry is left. -/
theorem clearFrom_anchored (h0 : ∀ k, 1 ≤ k → k ≤ d → tables k ≠ tables 0)
    (h1 : ∀ k, 2 ≤ k → k ≤ d → tables k ≠ tables 1) (hd : 1 ≤ d) (hj : j < 512)
    (hne : tableIndex 2 v ≠ j) (hp : present (s.entry (tables 1) j) = true)
    (hc : clearFrom tables v d s = some s') (i : ℕ) :
    s'.entry (tables 0) i = s.entry (tables 0) i := by
  induction d generalizing s with
  | zero => omega
  | succ d ih =>
    have hkeep : (s.setEntry (tables (d + 1)) (tableIndex (3 - (d + 1)) v) 0).entry (tables 0) i =
        s.entry (tables 0) i :=
      Vm.entry_setEntry_of_ne (Or.inl (h0 (d + 1) (by omega) le_rfl).symm)
    have hleft : present ((s.setEntry (tables (d + 1)) (tableIndex (3 - (d + 1)) v) 0).entry
        (tables 1) j) = true := by
      rw [Vm.entry_setEntry_of_ne, hp]
      rcases eq_or_ne d 0 with rfl | hd0
      · exact Or.inr hne.symm
      · exact Or.inl (h1 (d + 1) (by omega) le_rfl).symm
    rw [clearFrom] at hc
    split_ifs at hc with hcheck
    · cases hc
      exact hkeep
    · obtain ⟨s₁, hs₁, hc⟩ := Option.bind_eq_some_iff.mp hc
      obtain ⟨hmem₁, -, -⟩ := Vm.free_frame hs₁
      rcases eq_or_ne d 0 with rfl | hd0
      · rw [not_present_of_check (by simpa using hcheck) j hj] at hleft
        cases hleft
      · rw [ih (fun k hk hkd => h0 k hk (by omega)) (fun k hk hkd => h1 k hk (by omega)) (by omega)
          (by rw [Vm.entry_congr (congrFun hmem₁ _)]; exact hleft) hc,
          Vm.entry_congr (congrFun hmem₁ _), hkeep]

/-- The table at depth 1 on the path of `v` has an entry that no page of the region uses. -/
def Anchored (R : Set ℕ) (pml4 v : ℕ) (s : Vm) : Prop :=
  ∃ t, frameAt s pml4 v 1 = some t ∧ ∃ j < 512, present (s.entry t j) = true ∧
    ∀ v' ∈ R, prefixAt 1 v' = prefixAt 1 v → tableIndex 2 v' ≠ j

/-- An operation on the tree leaves everything else alone. The entries of the PML4 that change
are absent before, if pages are added, or after. -/
structure Beside (grow : Bool) (R : Set ℕ) (pml4 : ℕ) (s s' : Vm) : Prop where
  kernelPml4 : s'.kernelPml4 = s.kernelPml4
  total : s'.pageMap.totalPages = s.pageMap.totalPages
  spare : ∀ g, Spare R pml4 g s → Spare R pml4 g s' ∧ s'.mem g = s.mem g ∧
    s'.pageMap.pagemap g = s.pageMap.pagemap g
  row : ∀ i, s'.entry pml4 i = s.entry pml4 i ∨ (∃ v ∈ R, tableIndex 3 v = i) ∧
    present ((if grow then s else s').entry pml4 i) = false
  anchored : ∀ v ∈ R, Anchored R pml4 v s → Anchored R pml4 v s'

namespace Beside

theorem refl (grow : Bool) (R : Set ℕ) (pml4 : ℕ) (s : Vm) : Beside grow R pml4 s s :=
  ⟨rfl, rfl, fun _ h => ⟨h, rfl, rfl⟩, fun _ => Or.inl rfl, fun _ _ => id⟩

theorem trans (h : Beside grow R pml4 s s') (h' : Beside grow R pml4 s' s'') :
    Beside grow R pml4 s s'' where
  kernelPml4 := h'.kernelPml4.trans h.kernelPml4
  total := h'.total.trans h.total
  spare g hg := by
    obtain ⟨hg', hmem, hcount⟩ := h.spare g hg
    obtain ⟨hg'', hmem', hcount'⟩ := h'.spare g hg'
    exact ⟨hg'', hmem'.trans hmem, hcount'.trans hcount⟩
  row i := by
    cases grow with
    | true =>
      rcases h.row i with he | hc
      · rcases h'.row i with he' | ⟨hv, hp⟩
        · exact Or.inl (he'.trans he)
        · exact Or.inr ⟨hv, by simpa [he] using hp⟩
      · exact Or.inr hc
    | false =>
      rcases h'.row i with he' | hc
      · rcases h.row i with he | ⟨hv, hp⟩
        · exact Or.inl (he'.trans he)
        · exact Or.inr ⟨hv, by simpa [he'] using hp⟩
      · exact Or.inr hc
  anchored v hv ha := h'.anchored v hv (h.anchored v hv ha)

end Beside

/-- Memory and counters change at one frame only. -/
structure OnlyAt (n : ℕ) (s s' : Vm) : Prop where
  kernelPml4 : s'.kernelPml4 = s.kernelPml4
  total : s'.pageMap.totalPages = s.pageMap.totalPages
  mem : ∀ t, t ≠ n → s'.mem t = s.mem t
  counter : ∀ t, t ≠ n → s'.pageMap.pagemap t = s.pageMap.pagemap t

namespace OnlyAt

theorem frameAt_eq (h : OnlyAt n s s') (hoff : ∀ v ∈ R, ∀ d ≤ 4, frameAt s pml4 v d ≠ some n)
    (hv : v ∈ R) (hd : d ≤ 4) : frameAt s' pml4 v d = frameAt s pml4 v d :=
  frameAt_congr_mem fun k hk u hu => h.mem u fun he => hoff v hv k (by omega) (he ▸ hu)

theorem tree (h : OnlyAt n s s') (hoff : ∀ v ∈ R, ∀ d ≤ 4, frameAt s pml4 v d ≠ some n)
    (htree : Tree R pml4 s) : Tree R pml4 s' := by
  have hold : ∀ v ∈ R, ∀ d ≤ 4, ∀ f, frameAt s' pml4 v d = some f → frameAt s pml4 v d = some f :=
    fun v hv d hd f hf => (h.frameAt_eq hoff hv hd).symm.trans hf
  refine htree.mono hold fun v hv d hd f hf => ?_
  have hf' := hold v hv d hd f hf
  rw [h.total, h.counter f fun he => hoff v hv d hd (he ▸ hf')]
  exact htree.used hv hd hf'

theorem pageMem_eq (h : OnlyAt n s s') (hoff : ∀ v ∈ R, ∀ d ≤ 4, frameAt s pml4 v d ≠ some n)
    (hv : v ∈ R) : pageMem s' pml4 v = pageMem s pml4 v := by
  rw [pageMem, pageMem, h.frameAt_eq hoff hv le_rfl]
  exact Option.map_congr fun f hf => h.mem f fun he => hoff v hv 4 le_rfl (he ▸ hf)

theorem spare (h : OnlyAt n s s') (hoff : ∀ v ∈ R, ∀ d ≤ 4, frameAt s pml4 v d ≠ some n)
    (hne : f ≠ n) (hf : Spare R pml4 f s) : Spare R pml4 f s' where
  off v hv d hd := by
    rw [h.frameAt_eq hoff hv hd]
    exact hf.off v hv d hd
  lt := h.total ▸ hf.lt
  used := h.counter f hne ▸ hf.used

theorem anchored (h : OnlyAt n s s') (hoff : ∀ v ∈ R, ∀ d ≤ 4, frameAt s pml4 v d ≠ some n)
    (hv : v ∈ R) (ha : Anchored R pml4 v s) : Anchored R pml4 v s' := by
  obtain ⟨t, ht, j, hj, hp, hout⟩ := ha
  have hne : t ≠ n := fun he => hoff v hv 1 (by decide) (he ▸ ht)
  refine ⟨t, (h.frameAt_eq hoff hv (by decide)).trans ht, j, hj, ?_, hout⟩
  rw [Vm.entry_congr (h.mem t hne)]
  exact hp

end OnlyAt

namespace Tree

theorem frame_ne (h : Tree R pml4 s) (hv : v ∈ R) (hv' : v' ∈ R) (hd : d ≤ 4) (hj : j ≤ 4)
    (ht : frameAt s pml4 v d = some t) (hf : frameAt s pml4 v' j = some f) (hne : d ≠ j) :
    t ≠ f := by
  rintro rfl
  exact hne (h.unique hv hv' hd hj ht hf).1

theorem setPage_beside (h : Tree R pml4 s) (hv : v ∈ R) (hf : frameAt s pml4 v 4 = some f)
    (words : ℕ → BitVec 64) : Beside grow R pml4 s (s.setFrame f words) := by
  have hmem : ∀ v' ∈ R, ∀ d < 4, ∀ t, frameAt s pml4 v' d = some t →
      (s.setFrame f words).mem t = s.mem t := by
    intro v' hv' d hd t ht
    exact Vm.mem_setFrame_of_ne (h.frame_ne hv' hv (by omega) le_rfl ht hf (by omega))
  obtain ⟨-, hframe⟩ : Tree R pml4 (s.setFrame f words) ∧ ∀ v' ∈ R, ∀ d ≤ 4,
      frameAt (s.setFrame f words) pml4 v' d = frameAt s pml4 v' d :=
    h.congr rfl (fun _ => id) hmem
  refine ⟨rfl, rfl, fun g hg => ?_, fun i => Or.inl ?_, fun v' hv' ha => ?_⟩
  · have hgf : g ≠ f := fun he => hg.off v hv 4 le_rfl (he ▸ hf)
    refine ⟨⟨fun v' hv' d hd => ?_, hg.lt, hg.used⟩, Vm.mem_setFrame_of_ne hgf, rfl⟩
    rw [hframe v' hv' d hd]
    exact hg.off v' hv' d hd
  · exact Vm.entry_congr (hmem v hv 0 (by decide) pml4 rfl)
  · obtain ⟨t, ht, j, hj, hp, hout⟩ := ha
    refine ⟨t, (hframe v' hv' 1 (by decide)).trans ht, j, hj, ?_, hout⟩
    rwa [Vm.entry_congr (hmem v' hv' 1 (by decide) t ht)]

/-- Mapping a fresh frame. -/
theorem map_beside {s₁ : Vm} (h : Tree R pml4 s) (hv : v ∈ R)
    (hun : frameAt s pml4 v 4 = none) (ha : s.alloc = some (n, s₁))
    (hm : AddrSpace.map pml4 v n flags s₁ = some s') : Beside true R pml4 s s' := by
  obtain ⟨hrest₁, hspare₁, hframe₁⟩ := h.alloc (v := v) ha (s₁.mem n)
  have hid : s₁.setFrame n (s₁.mem n) = s₁ := by simp [Vm.setFrame]
  rw [hid] at hrest₁ hspare₁ hframe₁
  obtain ⟨hmem, hker, hn, hz, htot, hpm⟩ := Vm.alloc_eq_some ha
  obtain ⟨hker', htot', k, u, hk, hu, hp, hrest⟩ :=
    map_entry (fun k hk u hu => (hrest₁.tree.used hv (by omega) hu).2) hm
  have hcount₁ : ∀ g, s.pageMap.pagemap g ≠ 0 → s₁.pageMap.pagemap g = s.pageMap.pagemap g := by
    intro g hg
    rw [hpm, Function.update_of_ne]
    rintro rfl
    exact hg hz
  -- what `map` does to a frame that is in use before the call
  have hsame : ∀ g, s.pageMap.pagemap g ≠ 0 → ∀ i, s'.entry g i = s.entry g i ∨
      g = u ∧ i = tableIndex (3 - k) v ∧ present (s.entry g i) = false := by
    intro g hg i
    obtain ⟨-, hentry⟩ := hrest g (hcount₁ g hg ▸ hg)
    rcases hentry i with he | ⟨rfl, rfl⟩
    · exact Or.inl (he.trans (Vm.entry_congr (congrFun hmem g)))
    · exact Or.inr ⟨rfl, rfl, by rwa [Vm.entry_congr (congrFun hmem _)] at hp⟩
  have hu' : frameAt s pml4 v k = some u := (hframe₁ v hv k (by omega)).symm.trans hu
  refine ⟨hker'.trans hker, htot'.trans htot, fun g hg => ?_, fun i => ?_, fun v' hv' ha => ?_⟩
  · have hgu : g ≠ u := fun he => hg.off v hv k (by omega) (he ▸ hu')
    obtain ⟨hcount, -⟩ := hrest g (hcount₁ g hg.used ▸ hg.used)
    have hcount' := hcount.trans (hcount₁ g hg.used)
    refine ⟨⟨fun v' hv' d hd hf => ?_, ?_, hcount' ▸ hg.used⟩, funext fun i => ?_, hcount'⟩
    · rcases hrest₁.tree.frameAt_of_mapFrom hv hv' (d := 0) rfl hd rfl
        ((hframe₁ v hv 4 le_rfl).trans hun) hspare₁ hm hf with hold | hfree | rfl
      · exact hg.off v' hv' d hd ((hframe₁ v' hv' d hd).symm.trans hold)
      · exact hg.used ((hcount₁ g hg.used).symm.trans hfree)
      · exact hg.used hz
    · rw [htot', htot]
      exact hg.lt
    · exact (hsame g hg.used i).resolve_right fun hc => hgu hc.1
  · refine (hsame pml4 (h.used hv (Nat.zero_le 4) rfl).2 i).imp_right ?_
    rintro ⟨hpu, hi, hpi⟩
    obtain rfl : k = 0 := by
      by_contra hk0
      exact h.frame_ne hv hv (Nat.zero_le 4) (by omega) rfl hu' (Ne.symm hk0) hpu
    exact ⟨⟨v, hv, hi.symm⟩, hpi⟩
  · obtain ⟨t, ht, j, hj, hpj, hout⟩ := ha
    have hkeep : ∀ g i, s.pageMap.pagemap g ≠ 0 → present (s.entry g i) = true →
        s'.entry g i = s.entry g i := by
      intro g i hg hpi
      refine (hsame g hg i).resolve_right fun hc => ?_
      rw [hc.2.2] at hpi
      cases hpi
    refine ⟨t, ?_, j, hj, ?_, hout⟩
    · rw [← ht]
      refine frameAt_congr fun d hd u hu => ?_
      obtain rfl : d = 0 := by omega
      cases hu
      obtain ⟨_, hr, hp0, -⟩ := frameAt_succ_eq_some_iff.mp ht
      cases hr
      rw [hkeep pml4 _ (h.used hv' (Nat.zero_le 4) rfl).2 hp0]
      exact ⟨rfl, fun _ => rfl⟩
    · rw [hkeep t j (h.used hv' (by decide) ht).2 hpj]
      exact hpj

/-- Unmapping a mapped page. -/
theorem unmap_beside (h : Tree R pml4 s) (hv : v ∈ R) (hf : frameAt s pml4 v 4 = some f)
    (hu : AddrSpace.unmap pml4 v s = some s') : Beside false R pml4 s s' := by
  have hpaths := fun {v j f} => frameAt_of_unmap (v := v) (j := j) (f := f) hu
  simp only [AddrSpace.unmap, Option.bind_eq_bind, Option.bind_eq_some_iff] at hu
  obtain ⟨tables, hres, s₁, hs₁, hc⟩ := hu
  obtain rfl : tables = chase s pml4 v := by
    rw [resolve] at hres
    split_ifs at hres
    exact (Option.some.inj hres).symm
  have hchase : ∀ k ≤ 4, frameAt s pml4 v k = some (chase s pml4 v k) := fun k hk => chase_eq hf hk
  obtain ⟨hmem₁, hker₁, htot₁⟩ := Vm.free_frame hs₁
  obtain ⟨hker, htot, hcount, hentry⟩ := clearFrom_entry hc
  have hentry' : ∀ g i, s'.entry g i = s.entry g i ∨ s'.entry g i = 0 ∧
      ∃ k ≤ 3, g = chase s pml4 v k ∧ i = tableIndex (3 - k) v := by
    intro g i
    rw [← Vm.entry_congr (congrFun hmem₁ g)]
    exact hentry g i
  refine ⟨hker.trans hker₁, htot.trans htot₁, fun g hg => ?_, fun i => ?_, fun v' hv' ha => ?_⟩
  · have hoff : ∀ k ≤ 4, g ≠ chase s pml4 v k :=
      fun k hk he => hg.off v hv k hk (he ▸ hchase k hk)
    have hcount' : s'.pageMap.pagemap g = s.pageMap.pagemap g := by
      rw [hcount g fun k _ hk => hoff k (by omega), pagemap_of_free hs₁ (hoff 4 le_rfl)]
    refine ⟨⟨fun v' hv' d hd hgd => hg.off v' hv' d hd (hpaths hgd), ?_, hcount' ▸ hg.used⟩,
      funext fun i => ?_, hcount'⟩
    · rw [htot, htot₁]
      exact hg.lt
    · refine (hentry' g i).resolve_right ?_
      rintro ⟨-, k, hk, hgk, -⟩
      exact hoff k (by omega) hgk
  · refine (hentry' pml4 i).imp_right ?_
    rintro ⟨hz, k, hk, hpk, hi⟩
    obtain rfl : k = 0 := by
      by_contra hk0
      exact h.frame_ne hv hv (Nat.zero_le 4) (by omega) rfl (hchase k (by omega)) (Ne.symm hk0) hpk
    exact ⟨⟨v, hv, hi.symm⟩, hz ▸ present_zero⟩
  · obtain ⟨t, ht, j, hj, hpj, hout⟩ := ha
    have hdepth : ∀ k ≤ 4, t = chase s pml4 v k → k = 1 ∧ tableIndex 2 v ≠ j := by
      intro k hk he
      obtain ⟨rfl, hq⟩ := h.unique hv' hv (by decide) hk ht (he ▸ hchase k hk)
      exact ⟨rfl, hout v hv hq.symm⟩
    obtain ⟨u, hu, hp0, hppn⟩ := frameAt_succ_eq_some_iff.mp ht
    cases hu
    -- the entry of the PML4 stays, because something is left in the table below it
    have hroot : s'.entry pml4 (tableIndex 3 v') = s.entry pml4 (tableIndex 3 v') := by
      rcases eq_or_ne t (chase s pml4 v 1) with heq | hne
      · have hlow : ∀ k m, k ≤ 3 → m ≤ 3 → k ≠ m → chase s pml4 v k ≠ chase s pml4 v m :=
          fun k m hk hm hkm => h.frame_ne hv hv (by omega) (by omega) (hchase k (by omega))
            (hchase m (by omega)) hkm
        have hleft : present (s₁.entry (chase s pml4 v 1) j) = true := by
          rw [Vm.entry_congr (congrFun hmem₁ _), ← heq]
          exact hpj
        have := clearFrom_anchored (fun k hk hkd => hlow k 0 hkd (by omega) (by omega))
          (fun k hk hkd => hlow k 1 hkd (by omega) (by omega)) (by decide) hj
          (hdepth 1 (by decide) heq).2 hleft hc (tableIndex 3 v')
        rwa [Vm.entry_congr (congrFun hmem₁ _)] at this
      · refine (hentry' pml4 (tableIndex 3 v')).resolve_right ?_
        rintro ⟨-, k, hk, hpk, hi⟩
        obtain rfl : k = 0 := by
          by_contra hk0
          exact h.frame_ne hv hv (Nat.zero_le 4) (by omega) rfl (hchase k (by omega))
            (Ne.symm hk0) hpk
        rw [Nat.sub_zero] at hppn hi
        exact hne (by rw [← hppn, hi]; rfl)
    refine ⟨t, ?_, j, hj, ?_, hout⟩
    · refine frameAt_succ_eq_some_iff.mpr ⟨pml4, rfl, ?_, ?_⟩
      · rw [Nat.sub_zero, hroot]
        exact hp0
      · rw [Nat.sub_zero, hroot]
        exact hppn
    · have hsame : s'.entry t j = s.entry t j := by
        refine (hentry' t j).resolve_right ?_
        rintro ⟨-, k, hk, htk, hjk⟩
        obtain ⟨rfl, hne⟩ := hdepth k (by omega) htk
        exact hne hjk.symm
      rwa [hsame]

end Tree

end AddrSpace

end Koerix
