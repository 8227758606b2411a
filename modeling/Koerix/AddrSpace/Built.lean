import Koerix.AddrSpace.Undo

/-! # Address spaces built by mapping and unmapping

A run begins with own entries of the PML4 that are all absent, as the constructor
leaves them, and goes on with calls of `map` and `unmap`, in any order with what the
rest of the kernel does. As long as `unmap` is called on mapped pages only, the own
tables stay in order. On a page that is not mapped, `unmap` follows the absent entry
to frame 0, and if frame 0 is a table it takes that one apart.
-/

namespace Koerix

open GenericPagingTable

namespace AddrSpace

variable {I : Set ℕ} {r v k d : ℕ} {s s' : Vm} {ok : Vm → ℕ → Prop}

/-- The states of an address space with own PML4 entries `I` when `unmap` is called on the pages
that `ok` admits. -/
inductive Built (I : Set ℕ) (pml4 : ℕ) (ok : Vm → ℕ → Prop) : Vm → Prop
  | start {s : Vm} : (∀ i ∈ I, i < 512 → present (s.entry pml4 i) = false) → Backed I pml4 s →
      Built I pml4 ok s
  | rest {s s' : Vm} : Built I pml4 ok s → Respects I pml4 s s' → Built I pml4 ok s'
  | map {s s' : Vm} {virt phys : ℕ} {flags : MapFlags} : Built I pml4 ok s →
      tableIndex 3 virt ∈ I → Offered I pml4 s (ppn (ofPage phys flags)) →
      map pml4 virt phys flags s = some s' → Built I pml4 ok s'
  | unmap {s s' : Vm} {virt : ℕ} : Built I pml4 ok s → tableIndex 3 virt ∈ I → ok s virt →
      unmap pml4 virt s = some s' → Built I pml4 ok s'

def IsMapped (pml4 : ℕ) (s : Vm) (virt : ℕ) : Prop := AddrSpace.translate s pml4 virt ≠ none

section Start

theorem frameAt_of_absent (h : ∀ i ∈ I, i < 512 → present (s.entry r i) = false)
    (hv : tableIndex 3 v ∈ I) (hd : 1 ≤ d) : frameAt s r v d = none := by
  refine frameAt_none_of_le (d := 1) ?_ hd
  rw [frameAt, frameAt, Option.bind_some]
  simp [h _ hv (tableIndex_lt 3 v)]

theorem eq_zero_of_absent {t : ℕ} (h : ∀ i ∈ I, i < 512 → present (s.entry r i) = false)
    (hv : v ∈ ownPages I) (ht : frameAt s r v d = some t) : d = 0 ∧ t = r := by
  rcases Nat.eq_zero_or_pos d with rfl | hd
  · exact ⟨rfl, (Option.some.inj ht).symm⟩
  · simp [frameAt_of_absent h hv.2 hd] at ht

theorem Own.of_absent (h : ∀ i ∈ I, i < 512 → present (s.entry r i) = false)
    (hb : Backed I r s) : Own I r ∅ s := by
  refine { hb with distinct := ?_, filled := ?_, upper := ?_ }
  · intro v v' d d' t hv hv' hd hd' ht ht'
    obtain ⟨rfl, -⟩ := eq_zero_of_absent h hv ht
    obtain ⟨rfl, -⟩ := eq_zero_of_absent h hv' ht'
    exact ⟨rfl, (lt_iff_prefixAt.mp hv.1).trans (lt_iff_prefixAt.mp hv'.1).symm⟩
  · rintro t ⟨v, hv, d, -, ht⟩ hr
    exact absurd (eq_zero_of_absent h hv ht).2 hr
  · intro v d t hv _ ht hp
    obtain ⟨rfl, rfl⟩ := eq_zero_of_absent h hv ht
    rw [h _ hv.2 (tableIndex_lt _ _)] at hp
    cases hp

theorem Backed.of_absent (h : ∀ i ∈ I, i < 512 → present (s.entry r i) = false)
    (hr : r < s.pageMap.totalPages ∧ s.pageMap.pagemap r ≠ 0)
    (hother : ∀ t ∈ otherTables I r s, t < s.pageMap.totalPages →
      s.pageMap.pagemap t ≠ 0 ∧ t ≠ r) : Backed I r s := by
  have hM : ∀ f, mappings I r s f = ∅ := by
    refine fun f => Set.eq_empty_of_forall_notMem ?_
    rintro v ⟨hv, hf⟩
    exact absurd (eq_zero_of_absent h hv hf).1 (by decide)
  refine ⟨?_, fun t ht hlt => ⟨(hother t ht hlt).1, ?_⟩, fun f _ hmapped => ?_, fun f _ => ?_⟩
  · rintro t ⟨v, hv, d, -, ht⟩
    rw [(eq_zero_of_absent h hv ht).2]
    exact hr
  · rintro ⟨v, hv, d, -, ht'⟩
    exact (hother t ht hlt).2 (eq_zero_of_absent h hv ht').2
  · simp [hM] at hmapped
  · simp [hM]

theorem Backed.of_empty (h : ∀ i, present (s.entry r i) = false)
    (hr : r < s.pageMap.totalPages ∧ s.pageMap.pagemap r ≠ 0) : Backed I r s := by
  refine .of_absent (fun i _ _ => h i) hr ?_
  rintro t ⟨v, -, -, d, hd, -, ht⟩
  simp [frameAt_of_absent (I := Set.univ) (fun i _ _ => h i) (Set.mem_univ _) hd] at ht

theorem empty_of_create (hk : s.kernelPml4 = none) (hc : AddrSpace.create s = some (r, s')) :
    (∀ i, present (s'.entry r i) = false) ∧
      r < s'.pageMap.totalPages ∧ s'.pageMap.pagemap r ≠ 0 := by
  simp only [AddrSpace.create, Option.bind_eq_bind, Option.bind_eq_some_iff, Option.pure_def,
    Option.some.injEq, Prod.mk.injEq, Prod.exists] at hc
  obtain ⟨r, s₁, ha, rfl, rfl⟩ := hc
  obtain ⟨-, hk₁, hn, -, htot, hp⟩ := Vm.alloc_eq_some ha
  have hkm : (s₁.setFrame r fun _ => 0).kernelPml4 = none := hk₁.trans hk
  rw [updateKernelMappings, hkm]
  exact ⟨fun i => by simp [Vm.entry], htot ▸ hn, by simp [hp]⟩

theorem Built.create (hk : s.kernelPml4 = none) (hc : AddrSpace.create s = some (r, s')) :
    Built Set.univ r ok s' := by
  obtain ⟨habsent, hr⟩ := empty_of_create hk hc
  exact .start (fun i _ _ => habsent i) (.of_empty habsent hr)

/-- Any other address space owns the lower half and looks at the tables of the kernel. -/
theorem Built.createUser (hk : s.kernelPml4 = some k) (hb : Backed (Set.Ici 256) k s)
    (hc : AddrSpace.create s = some (r, s')) : Built (Set.Iio 256) r ok s' := by
  simp only [AddrSpace.create, Option.bind_eq_bind, Option.bind_eq_some_iff, Option.pure_def,
    Option.some.injEq, Prod.mk.injEq, Prod.exists] at hc
  obtain ⟨r, s₁, ha, rfl, rfl⟩ := hc
  obtain ⟨hmem, hk₁, hn, hz, htot, hp⟩ := Vm.alloc_eq_some ha
  obtain ⟨hfresh, -, -⟩ := hb.fresh hn hz
  have hkm : (s₁.setFrame r fun _ => 0).kernelPml4 = some k := hk₁.trans hk
  rw [updateKernelMappings, hkm]
  have hkr : k ≠ r := by
    rintro rfl
    exact hfresh ⟨2 ^ 35, ⟨by decide, by simp [tableIndex_eq]⟩, 0, Nat.zero_le 3, rfl⟩
  set s' := (s₁.setFrame r fun _ => 0).setFrame r fun i =>
    if 256 ≤ i then (s₁.setFrame r fun _ => 0).mem k i else (s₁.setFrame r fun _ => 0).mem r i
  have hkeep : ∀ t, t ≠ r → s'.mem t = s.mem t := by
    intro t ht
    rw [Vm.mem_setFrame_of_ne ht, Vm.mem_setFrame_of_ne ht, hmem]
  have hroot : ∀ i, s'.entry r i = if 256 ≤ i then s.entry k i else 0 := by
    intro i
    simp only [Vm.entry, s', Vm.mem_setFrame_self, Vm.mem_setFrame_of_ne hkr, hmem]
  have habsent : ∀ i ∈ Set.Iio 256, i < 512 → present (s'.entry r i) = false := by
    intro i hi _
    have hlt : ¬ 256 ≤ i := Nat.not_le.mpr hi
    rw [hroot, if_neg hlt]
    exact present_zero
  -- from the second level on, the paths of the upper half are those of the kernel
  have hframe : ∀ v < 2 ^ 36, 256 ≤ tableIndex 3 v → ∀ d ≤ 3, 1 ≤ d →
      frameAt s' r v d = frameAt s k v d := by
    intro v hv hi d hd3 hd
    induction hd with
    | refl =>
      have he : s'.entry r (tableIndex (3 - 0) v) = s.entry k (tableIndex (3 - 0) v) :=
        (hroot _).trans (if_pos hi)
      rw [frameAt, frameAt, frameAt, frameAt, Option.bind_some, Option.bind_some, he]
    | @step d hd ih =>
      rw [frameAt, frameAt, ih (by omega)]
      refine Option.bind_congr fun t ht => ?_
      have hne : t ≠ r := by
        rintro rfl
        exact hfresh ⟨v, ⟨hv, hi⟩, d, by omega, ht⟩
      rw [Vm.entry_congr (hkeep t hne)]
  refine .start habsent (.of_absent habsent ⟨htot ▸ hn, by simp [hp]⟩ ?_)
  rintro t ⟨v, hv, ho, d, hd, hd3, ht⟩ -
  have hi : 256 ≤ tableIndex 3 v := by
    by_contra hlt
    exact ho ⟨hv, Nat.not_le.mp hlt⟩
  rw [hframe v hv hi d hd3 hd] at ht
  have hown : t ∈ ownTables (Set.Ici 256) k s := ⟨v, ⟨hv, hi⟩, d, hd3, ht⟩
  have hne : t ≠ r := by
    rintro rfl
    exact hfresh hown
  refine ⟨?_, hne⟩
  change s₁.pageMap.pagemap t ≠ 0
  rw [hp, Function.update_of_ne hne]
  exact (hb.table t hown).2

end Start

/-- Calls of `map` and of `unmap` on mapped pages keep the own tables in order. -/
theorem Built.own (h : Built I r (IsMapped r) s) : Own I r ∅ s := by
  induction h with
  | start habsent hb => exact .of_absent habsent hb
  | rest _ hr ih => exact ih.respects hr
  | @map s s' virt phys flags _ hI hp hm ih =>
    exact (ih.map (mod_mem_ownPages hI) hp ((mapFrom_mod s virt phys flags le_rfl r).trans hm)).1
  | @unmap s s' virt _ hI hmapped hu ih =>
    have hne : frameAt s r (virt % 2 ^ 36) 4 ≠ none := by
      rw [frameAt_mod]
      exact fun hnone => hmapped (translate_eq_none_iff.mpr hnone)
    obtain ⟨f, hf⟩ := Option.ne_none_iff_exists'.mp hne
    obtain ⟨s₁, hs₁, hown, -⟩ := ih.unmap (mod_mem_ownPages hI) hf
    rw [unmap_mod, hu] at hs₁
    cases hs₁
    exact hown

/-- In an address space built by `map` and by `unmap` of mapped pages, `unmap` undoes `map`, and
no table below the PML4 is empty. -/
theorem undoes_of_built (h : Built I r (IsMapped r) s) : Undoes I r s := h.own.undoes

/-- Eight frames, an empty PML4 in frame 1, and frame 2 waiting to be mapped. Frame 0 is free. -/
def spareSpace : Vm where
  mem := fun _ _ => 0
  pageMap :=
    { totalPages := 8
      fits := emptySpace.pageMap.fits
      usablePages := 8
      freePageCount := 6
      usedPages := 2
      pagemap := fun f => if f = 1 ∨ f = 2 then 1 else 0 }
  kernelPml4 := none

def userPage : MapFlags := ⟨true, true, false, false, false⟩

theorem built_spareSpace (h : map 1 0 2 userPage spareSpace = some s) :
    Built Set.univ 1 ok s := by
  have habsent : ∀ i ∈ Set.univ, i < 512 → present (spareSpace.entry 1 i) = false :=
    fun _ _ _ => present_zero
  have hb : Backed Set.univ 1 spareSpace := .of_absent habsent (by decide) (by
    rintro t ⟨v, hv, ho, -⟩
    exact absurd ⟨hv, Set.mem_univ _⟩ ho)
  refine .map (.start habsent hb) (Set.mem_univ _) ?_ h
  have hppn : ppn (ofPage 2 userPage) = 2 := by decide
  rw [hppn]
  refine fun _ => ⟨?_, ?_, ?_⟩
  · rintro ⟨v, hv, d, -, ht⟩
    exact absurd (eq_zero_of_absent habsent hv ht).2 (by decide)
  · rintro ⟨v, hv, ho, -⟩
    exact absurd ⟨hv, Set.mem_univ _⟩ ho
  · have hM : mappings Set.univ 1 spareSpace 2 = ∅ := by
      refine Set.eq_empty_of_forall_notMem ?_
      rintro v ⟨hv, hf⟩
      exact absurd (eq_zero_of_absent habsent hv hf).1 (by decide)
    rw [hM, Set.ncard_empty]
    decide

theorem backed_kernel (hk : AddrSpace.create spareSpace = some (k, s)) :
    Backed (Set.Ici 256) k { s with kernelPml4 := some k } := by
  obtain ⟨habsent, hroot⟩ := empty_of_create rfl hk
  exact .of_empty habsent hroot

theorem undoes_of_built_spareSpace :
    (∃ s, map 1 0 2 userPage spareSpace = some s ∧ IsMapped 1 s 0 ∧ Undoes Set.univ 1 s) ∧
      ∃ k s r s', AddrSpace.create spareSpace = some (k, s) ∧
        AddrSpace.create { s with kernelPml4 := some k } = some (r, s') ∧
        Undoes Set.univ k s ∧ Undoes (Set.Iio 256) r s' := by
  constructor
  · obtain ⟨s, hs⟩ := Option.isSome_iff_exists.mp
      (show (map 1 0 2 userPage spareSpace).isSome from by decide +kernel)
    have hmapped : (map 1 0 2 userPage spareSpace).map
        (fun s => (AddrSpace.translate s 1 0).isSome) = some true := by
      decide +kernel
    rw [hs, Option.map_some, Option.some.injEq] at hmapped
    exact ⟨s, hs, fun hn => by simp [hn] at hmapped, undoes_of_built (built_spareSpace hs)⟩
  · obtain ⟨⟨k, s⟩, hk⟩ := Option.isSome_iff_exists.mp
      (show (AddrSpace.create spareSpace).isSome from by decide +kernel)
    have hsome : ((AddrSpace.create spareSpace).bind fun x =>
        AddrSpace.create { x.2 with kernelPml4 := some x.1 }).isSome := by
      decide +kernel
    rw [hk, Option.bind_some] at hsome
    obtain ⟨⟨r, s'⟩, hr⟩ := Option.isSome_iff_exists.mp hsome
    exact ⟨k, s, r, s', hk, hr, undoes_of_built (.create rfl hk),
      undoes_of_built (.createUser rfl (backed_kernel hk) hr)⟩

/-- Unmapping a page whose PML4 entry is absent takes the tables of another page apart: the
PML4 keeps an entry for frame 0, which is free and empty. -/
theorem not_forall_undoes : ¬ ∀ (I : Set ℕ) (r : ℕ) (s : Vm),
    Built I r (fun _ _ => True) s → Undoes I r s := by
  intro h
  have hrun : ((map 1 0 2 userPage spareSpace).bind (unmap 1 (2 ^ 27))).map (fun s =>
      (frameAt s 1 0 1, checkForPresentEntries s 0)) = some (some 0, false) := by
    decide +kernel
  rw [Option.map_eq_some_iff] at hrun
  obtain ⟨s', hs', hend⟩ := hrun
  obtain ⟨s, hs, hu⟩ := Option.bind_eq_some_iff.mp hs'
  obtain ⟨hframe, hcheck⟩ := Prod.mk.inj hend
  have hbuilt : Built Set.univ 1 (fun _ _ => True) s' :=
    .unmap (built_spareSpace hs) (Set.mem_univ _) trivial hu
  have hfilled := (h Set.univ 1 s' hbuilt).filled 0 1 0 (Set.mem_univ _) le_rfl (by decide) hframe
  rw [hcheck] at hfilled
  cases hfilled

end AddrSpace

end Koerix
