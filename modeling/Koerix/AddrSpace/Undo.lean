import Koerix.AddrSpace.Relink

/-! # Unmapping undoes mapping

In an address space whose own tables were built by `map` and `unmap` alone, mapping
a page and unmapping it again restores every translation and the whole page map. No
own table below the PML4 is ever empty, so the tables are determined by the pages
that are mapped: what `unmap` releases is what `map` has added.
-/

namespace Koerix

open GenericPagingTable

namespace AddrSpace

variable {I X : Set ℕ} {r v v' d j k t u n f g i phys level : ℕ} {s s' s₁ s'' : Vm}
  {e : GenericPagingTable} {flags : MapFlags} {back back' : ℕ → ℕ} {tables : ℕ → ℕ}

/-- Pages other than `v` translate as before, and the counters have followed the own tables.
Besides, `back` counts the references that the address space has given back. -/
structure Only (I : Set ℕ) (pml4 v : ℕ) (back : ℕ → ℕ) (s s' : Vm) : Prop where
  stats : s.pageMap.Steady s'.pageMap
  walk : ∀ v' < 2 ^ 36, v' ≠ v → walk s' pml4 v' = walk s pml4 v'
  counters : ∀ f, (s'.pageMap.pagemap f).toNat + (ownTables I pml4 s).indicator 1 f + back f =
    (s.pageMap.pagemap f).toNat + (ownTables I pml4 s').indicator 1 f

theorem Only.trans (h : Only I r v back s s') (h' : Only I r v back' s' s'') :
    Only I r v (back + back') s s'' where
  stats := h.stats.trans h'.stats
  walk w hw hne := (h'.walk w hw hne).trans (h.walk w hw hne)
  counters f := by
    have h₁ := h.counters f
    have h₂ := h'.counters f
    rw [Pi.add_apply]
    omega

theorem indicator_congr {A B : Set ℕ} (h : f ∈ A ↔ f ∈ B) :
    A.indicator (1 : ℕ → ℕ) f = B.indicator 1 f := by
  by_cases hf : f ∈ A
  · rw [Set.indicator_of_mem hf, Set.indicator_of_mem (h.mp hf)]
  · rw [Set.indicator_of_notMem hf, Set.indicator_of_notMem fun hB => hf (h.mpr hB)]

theorem frameAt_four_eq : frameAt s r v 4 = (walk s r v).map fun es => ppn (es.getLastD 0) := by
  rcases hw : walk s r v with _ | es
  · exact walk_eq_none_iff.mp hw
  · exact frameAt_four hw

theorem Offered.counter_ne_zero (h : Offered I r s f) (hf : f < s.pageMap.totalPages) :
    s.pageMap.pagemap f ≠ 0 := by
  intro hz
  have := (h hf).2.2
  rw [hz] at this
  exact absurd this (Nat.not_lt_zero _)

/-- One more table on the way of `map`. -/
theorem Own.addTable (h : Own I r X s) (hX : X ⊆ {t}) (hv : v ∈ ownPages I) (hd : d < 3)
    (ht : frameAt s r v d = some t)
    (hfree : present (s.entry t (tableIndex (3 - d) v)) = false) (ha : s.alloc = some (n, s₁))
    (hs' : s' = (s₁.setFrame n fun _ => 0).setEntry t (tableIndex (3 - d) v) (ofTable n)) :
    Own I r {n} s' ∧ Only I r v 0 s s' ∧ frameAt s' r v (d + 1) = some n ∧
      (∀ i, present (s'.entry n i) = false) ∧ ∀ p, Offered I r s p → Offered I r s' p := by
  obtain ⟨hmem, -, hn, hz, htot, hp⟩ := Vm.alloc_eq_some ha
  obtain ⟨hown, hother, hmap⟩ := h.fresh hn hz
  obtain ⟨hres, hwalk, hframe⟩ := h.toBacked.alloc hv ha fun _ => 0
  have htn : t ≠ n := by rintro rfl; exact hown ⟨v, hv, d, by omega, ht⟩
  have hT₂ : ownTables I r (s₁.setFrame n fun _ => 0) = ownTables I r s :=
    ownTables_congr fun v' hv' d hd => hframe v' hv'.1 d (by omega)
  have hO₂ : otherTables I r (s₁.setFrame n fun _ => 0) = otherTables I r s :=
    otherTables_congr fun v' hv' _ d hd => hframe v' hv' d (by omega)
  have hM₂ := mappings_congr (I := I) fun v' hv' => hframe v' hv'.1 4 le_rfl
  have hzero : ∀ i, present ((s₁.setFrame n fun _ => 0).entry n i) = false := by
    intro i
    simp [Vm.entry]
  obtain ⟨hown', hT, hO, hself, hwalk'⟩ := (h.respects hres).hangTable hX hv hd
    ((hframe v hv.1 d (by omega)).trans ht)
    (by rwa [Vm.entry_setFrame_of_ne htn, Vm.entry_congr (congrFun hmem t)])
    (htot ▸ hn) (by simp [hp]) (by rwa [hT₂]) (by rwa [hO₂]) (by rw [hM₂, hmap]) hzero
  rw [← hs'] at hown' hT hO hself hwalk'
  have hpm : s'.pageMap = s₁.pageMap := by rw [hs']; rfl
  have hkeep : ∀ v' < 2 ^ 36, walk s' r v' = walk s r v' :=
    fun v' hv' => (hwalk' v' hv').trans (hwalk v' hv')
  rw [hT₂] at hT
  refine ⟨hown', ⟨?_, fun v' hv' _ => hkeep v' hv', fun f => ?_⟩, hself, fun i => ?_,
    fun p hoff hlt => ?_⟩
  · rw [hpm]
    simp only [Vm.alloc, Option.map_eq_some_iff, Prod.exists, Prod.mk.injEq] at ha
    obtain ⟨_, m, ha, rfl, rfl⟩ := ha
    exact .of_alloc ha
  · rw [hpm, hp, hT, Pi.zero_apply, Nat.add_zero]
    rcases eq_or_ne f n with rfl | hne
    · simp [hown, hz]
    · rw [Function.update_of_ne hne, indicator_congr (B := insert n (ownTables I r s))]
      simp [hne]
  · rw [hs', Vm.entry_setEntry_of_ne (Or.inl htn.symm)]
    exact hzero i
  · rw [hpm, htot] at hlt
    obtain ⟨hp₁, hp₂, hp₃⟩ := hoff hlt
    have hne : p ≠ n := by
      rintro rfl
      exact hoff.counter_ne_zero hlt hz
    have hM : mappings I r s' p = mappings I r s p :=
      mappings_congr (fun v' hv' => by rw [frameAt_four_eq, frameAt_four_eq, hkeep v' hv'.1]) p
    rw [hT, hO, hO₂, hM, hpm, hp, Function.update_of_ne hne]
    refine ⟨?_, hp₂, hp₃⟩
    rintro (hc | hc)
    · exact hne hc
    · exact hp₁ hc

/-- The loop of `map` from an absent entry on. -/
theorem Own.mapFrom (h : Own I r X s) (hX : X ⊆ {t}) (hv : v ∈ ownPages I) (hl : d + level = 3)
    (ht : frameAt s r v d = some t)
    (hfree : present (s.entry t (tableIndex level v)) = false)
    (hp : Offered I r s (ppn (ofPage phys flags)))
    (hm : mapFrom v phys flags level t s = some s') :
    Own I r ∅ s' ∧ Only I r v 0 s s' ∧ entryAt s' r v 3 = some (ofPage phys flags) := by
  induction level generalizing d t s X with
  | zero =>
    obtain rfl : d = 3 := by omega
    simp only [AddrSpace.mapFrom, hfree, Bool.false_eq_true, if_false, Option.some.injEq] at hm
    subst hm
    obtain ⟨hown, hT, hself, hwalk⟩ := h.hangPage hX hv ht hfree (by simp) hp
    exact ⟨hown, ⟨.refl _, hwalk, fun f => by rw [hT]; rfl⟩, hself⟩
  | succ level ih =>
    have hlevel : 3 - d = level + 1 := by omega
    simp only [AddrSpace.mapFrom, hfree, Bool.false_eq_true, if_false, Option.bind_eq_bind,
      Option.bind_eq_some_iff, Prod.exists] at hm
    obtain ⟨n, s₁, ha, hm⟩ := hm
    have hppn : ppn (ofTable n) = n := by
      rw [ppn_ofTable, Nat.mod_eq_of_lt (lt_of_lt_of_le (Vm.alloc_eq_some ha).2.2.1 s.pageMap.fits)]
    rw [Vm.entry_setEntry_self, hppn] at hm
    obtain ⟨hown, honly, hself, hempty, hoff⟩ := h.addTable hX hv (by omega) ht
      (by rwa [hlevel]) ha (by rw [hlevel])
    obtain ⟨hown', honly', hself'⟩ := ih hown subset_rfl (by omega) hself (hempty _)
      (hoff _ hp) hm
    exact ⟨hown', honly.trans honly', hself'⟩

/-- From an absent entry `map` returns if there is a free frame for every table it needs. -/
theorem exists_mapFrom_of_absent (ht : s.pageMap.pagemap t ≠ 0)
    (hfree : present (s.entry t (tableIndex level v)) = false)
    (hle : level ≤ s.pageMap.freeFrames) : ∃ s', mapFrom v phys flags level t s = some s' := by
  induction level generalizing t s with
  | zero => exact ⟨_, by simp [mapFrom, hfree]; rfl⟩
  | succ level ih =>
    obtain ⟨n, m, hm⟩ := PageMap.exists_alloc (m := s.pageMap) (by omega)
    have ha : s.alloc = some (n, { s with pageMap := m }) := by rw [Vm.alloc, hm]; rfl
    obtain ⟨-, -, hn, hz, -, hp⟩ := Vm.alloc_eq_some ha
    have hcount := PageMap.freeFrames_alloc hm
    have hppn : ppn (ofTable n) = n := by
      rw [ppn_ofTable, Nat.mod_eq_of_lt (lt_of_lt_of_le hn s.pageMap.fits)]
    have hnt : n ≠ t := by rintro rfl; exact ht hz
    simp only [mapFrom, hfree, Bool.false_eq_true, if_false, Option.bind_eq_bind, ha,
      Option.bind_some, Vm.entry_setEntry_self, hppn]
    refine ih ?_ ?_ ?_
    · change m.pagemap n ≠ 0
      rw [show m.pagemap = _ from hp, Function.update_self]
      decide
    · rw [Vm.entry_setEntry_of_ne (Or.inl hnt)]
      simp [Vm.entry]
    · change level ≤ m.freeFrames
      omega

/-- `map` returns on a page that is not mapped if there is a free frame for every table. -/
theorem exists_mapFrom (hl : d + level = 3) (ht : frameAt s r v d = some t)
    (hun : frameAt s r v 4 = none)
    (hused : ∀ k ≤ 3, ∀ u, frameAt s r v k = some u → s.pageMap.pagemap u ≠ 0)
    (hle : level ≤ s.pageMap.freeFrames) : ∃ s', mapFrom v phys flags level t s = some s' := by
  induction level generalizing d t with
  | zero =>
    obtain rfl : d = 3 := by omega
    refine exists_mapFrom_of_absent (hused 3 le_rfl t ht) ?_ hle
    by_contra hp
    have hf := frameAt_succ_eq_some_iff.mpr ⟨t, ht, (Bool.not_eq_false _).mp hp, rfl⟩
    simp [hun] at hf
  | succ level ih =>
    have hlevel : 3 - d = level + 1 := by omega
    rcases hp : present (s.entry t (tableIndex (level + 1) v)) with _ | _
    · exact exists_mapFrom_of_absent (hused d (by omega) t ht) hp hle
    · have ht' : frameAt s r v (d + 1) = some (ppn (s.entry t (tableIndex (level + 1) v))) :=
        frameAt_succ_eq_some_iff.mpr ⟨t, ht, by rwa [hlevel], by rw [hlevel]⟩
      simp only [mapFrom, hp, if_true]
      exact ih (by omega) ht' (by omega)

theorem Grown.frameAt_eq (h : Grown s s' v phys flags level t)
    (hfree : present (s.entry t (tableIndex level v)) = false)
    (hused : ∀ k ≤ 3, ∀ u, frameAt s r v' k = some u → s.pageMap.pagemap u ≠ 0) (hd : d ≤ 4)
    (hf : frameAt s r v' d = some f) : frameAt s' r v' d = some f := by
  induction d generalizing f with
  | zero => exact hf
  | succ d ih =>
    obtain ⟨u, hu, hp, rfl⟩ := frameAt_succ_eq_some_iff.mp hf
    have hslot : u ≠ t ∨ tableIndex (3 - d) v' ≠ tableIndex level v := by
      by_contra hc
      obtain ⟨rfl, hi⟩ : u = t ∧ tableIndex (3 - d) v' = tableIndex level v := by tauto
      rw [hi, hfree] at hp
      cases hp
    have he := h.other u _ (hused d (by omega) u hu) hslot
    exact frameAt_succ_eq_some_iff.mpr ⟨u, ih (by omega) hu, by rwa [he], by rw [he]⟩

/-- What `map` does to the own tables. -/
theorem Own.map (h : Own I r ∅ s) (hv : v ∈ ownPages I)
    (hp : Offered I r s (ppn (ofPage phys flags))) (hm : map r v phys flags s = some s') :
    Own I r ∅ s' ∧ Only I r v 0 s s' ∧ entryAt s' r v 3 = some (ofPage phys flags) ∧
      ∀ v' ∈ ownPages I, ∀ d ≤ 3, ∀ t, frameAt s r v' d = some t →
        frameAt s' r v' d = some t := by
  obtain ⟨k, u, -, hk, hu, hfree, hm⟩ := mapFrom_descend (d := 0) rfl rfl hm
  obtain ⟨hown, honly, hself⟩ := (h.mono (Set.empty_subset {u})).mapFrom subset_rfl hv (by omega)
    hu hfree hp hm
  have hused : ∀ v' ∈ ownPages I, ∀ k ≤ 3, ∀ u, frameAt s r v' k = some u →
      s.pageMap.pagemap u ≠ 0 :=
    fun v' hv' k hk u hu => (h.table u ⟨v', hv', k, hk, hu⟩).2
  have hg := mapFrom_grown (hused v hv k hk u hu) hfree hm
  exact ⟨hown, honly, hself, fun v' hv' d hd t ht =>
    hg.frameAt_eq hfree (hused v' hv') (by omega) ht⟩

theorem Own.cutTable_only (h : Own I r {f} s) (hv : v ∈ ownPages I) (hd : d < 3)
    (ht : frameAt s r v d = some t) (hf : frameAt s r v (d + 1) = some f)
    (hempty : checkForPresentEntries s f = false) (hm : s.free f = some s₁) :
    Own I r {t} (s₁.setEntry t (tableIndex (3 - d) v) 0) ∧
      Only I r v 0 s (s₁.setEntry t (tableIndex (3 - d) v) 0) := by
  obtain ⟨hown, hf', hT, hwalk⟩ := h.cutTable subset_rfl hv hd ht hf hempty hm
  refine ⟨hown, ⟨?_, fun v' hv' _ => hwalk v' hv', fun g => ?_⟩⟩
  · simp only [Vm.free, Option.map_eq_some_iff] at hm
    obtain ⟨m, hm, rfl⟩ := hm
    exact .of_free hm
  · rw [hT, Pi.zero_apply, Vm.pageMap_setEntry]
    rcases eq_or_ne g f with rfl | hne
    · have := counter_of_free hm (h.table g hf').1
      rw [Set.indicator_of_mem hf', Set.indicator_of_notMem fun hc => hc.2 rfl]
      simpa using this
    · rw [pagemap_of_free hm hne, indicator_congr (B := ownTables I r s \ {f})]
      · rfl
      · simp [hne]

theorem Own.frameAt_above (h : Own I r X s) (hv : v ∈ ownPages I) (hd : d ≤ 3)
    (ht : frameAt s r v d = some t) (hmem : s₁.mem = s.mem) (hj : j ≤ d) :
    frameAt (s₁.setEntry t (tableIndex (3 - d) v) e) r v j = frameAt s r v j := by
  have hmem' : (s₁.setEntry t (tableIndex (3 - d) v) e).mem =
      (s.setEntry t (tableIndex (3 - d) v) e).mem := by
    simp only [Vm.setEntry, hmem]
  rw [frameAt_congr_mem fun _ _ u _ => congrFun hmem' u]
  exact h.frameAt_setEntry hv hd ht hv.1 (by omega) fun _ hlt => by omega

/-- The upward loop of `unmap`, once the first entry has been cleared. -/
theorem Own.clearFrom (h : Own I r {tables d} (s.setEntry (tables d) (tableIndex (3 - d) v) 0))
    (hv : v ∈ ownPages I) (hd : d ≤ 3)
    (htables : ∀ j ≤ d, frameAt (s.setEntry (tables d) (tableIndex (3 - d) v) 0) r v j =
      some (tables j)) :
    ∃ s', AddrSpace.clearFrom tables v d s = some s' ∧ Own I r ∅ s' ∧
      Only I r v 0 (s.setEntry (tables d) (tableIndex (3 - d) v) 0) s' := by
  have hrefl : ∀ s : Vm, Only I r v 0 s s := fun s => ⟨.refl _, fun _ _ _ => rfl, fun _ => rfl⟩
  induction d generalizing s with
  | zero =>
    refine ⟨_, rfl, { h with filled := fun t ht hr _ => h.filled t ht hr ?_ }, hrefl _⟩
    rw [← Option.some.inj (htables 0 le_rfl)]
    exact hr
  | succ d ih =>
    rw [AddrSpace.clearFrom]
    set s₁ := s.setEntry (tables (d + 1)) (tableIndex (3 - (d + 1)) v) 0
    rcases hc : checkForPresentEntries s₁ (tables (d + 1)) with _ | _
    · have hf := htables (d + 1) le_rfl
      have ht := htables d (Nat.le_succ d)
      obtain ⟨hlt, hne⟩ := h.table _ ⟨v, hv, d + 1, hd, hf⟩
      obtain ⟨m, hm⟩ := PageMap.free_of_pos fun _ => hne
      have hs₂ : s₁.free (tables (d + 1)) = some { s₁ with pageMap := m } := by
        rw [Vm.free, hm]; rfl
      obtain ⟨hown, honly⟩ := h.cutTable_only hv (by omega) ht hf hc hs₂
      obtain ⟨s', hs', hown', honly'⟩ := ih hown (by omega) fun j hj =>
        (h.frameAt_above hv (by omega) ht (Vm.free_frame hs₂).1 hj).trans (htables j (by omega))
      exact ⟨s', by simp [hs₂, hs'], hown', honly.trans honly'⟩
    · refine ⟨s₁, by simp, { h with filled := fun t ht hr _ => ?_ }, hrefl s₁⟩
      rcases eq_or_ne t (tables (d + 1)) with rfl | hne
      · exact hc
      · exact h.filled t ht hr hne

/-- What `unmap` does to the own tables when the page is mapped. -/
theorem Own.unmap (h : Own I r ∅ s) (hv : v ∈ ownPages I) (hf : frameAt s r v 4 = some f) :
    ∃ s', unmap r v s = some s' ∧ Own I r ∅ s' ∧
      Only I r v (fun g => if g = f ∧ g < s.pageMap.totalPages then 1 else 0) s s' := by
  have htable : ∀ d ≤ 3, chase s r v d < s.pageMap.totalPages :=
    fun d hd => (h.table _ ⟨v, hv, d, hd, chase_eq hf (by omega)⟩).1
  have hres : resolve s r v = some (chase s r v) := by
    rw [resolve, if_pos]
    simp only [List.all_cons, List.all_nil, Bool.and_true, Bool.and_eq_true, decide_eq_true_eq]
    exact ⟨htable 1 (by decide), htable 2 (by decide), htable 3 le_rfl⟩
  have hpage : chase s r v 4 = f := Option.some.inj ((chase_eq hf le_rfl).symm.trans hf)
  obtain ⟨m, hm⟩ : ∃ m, s.pageMap.free f = some m := by
    refine PageMap.free_of_pos fun hlt hz => ?_
    have hrefs := h.refs f hlt
    rw [hz] at hrefs
    have hempty := (Set.ncard_eq_zero (mappings_finite I r s f)).mp (Nat.le_zero.mp hrefs)
    have hmem : v ∈ mappings I r s f := ⟨hv, hf⟩
    simp [hempty] at hmem
  have hs₁ : s.free f = some { s with pageMap := m } := by rw [Vm.free, hm]; rfl
  have ht := chase_eq hf (show 3 ≤ 4 by decide)
  obtain ⟨hown, hT, hwalk⟩ := h.cutPage hv ht hf hs₁
  have honly : Only I r v (fun g => if g = f ∧ g < s.pageMap.totalPages then 1 else 0) s
      (Vm.setEntry { s with pageMap := m } (chase s r v 3) (tableIndex 0 v) 0) := by
    refine ⟨.of_free hm, hwalk, fun g => ?_⟩
    rw [hT, Vm.pageMap_setEntry]
    split_ifs with hg
    · obtain ⟨rfl, hlt⟩ := hg
      have := counter_of_free hs₁ hlt
      omega
    · rcases eq_or_ne g f with rfl | hne
      · have hge : s.pageMap.totalPages ≤ g := by
          by_contra hlt
          exact hg ⟨rfl, by omega⟩
        rw [PageMap.free_of_le hge] at hm
        cases hm
        rfl
      · rw [pagemap_of_free hs₁ hne, Nat.add_zero]
  have htables : ∀ j ≤ 3, frameAt (Vm.setEntry { s with pageMap := m } (chase s r v 3)
      (tableIndex (3 - 3) v) 0) r v j = some (chase s r v j) :=
    fun j hj => (h.frameAt_above hv le_rfl ht (Vm.free_frame hs₁).1 hj).trans
      (chase_eq hf (by omega))
  obtain ⟨s', hs', hown', honly'⟩ := hown.clearFrom (d := 3) hv le_rfl htables
  exact ⟨s', by simp [AddrSpace.unmap, hres, hpage, hs₁, hs'], hown', honly.trans honly'⟩

theorem Own.exists_mapped (h : Own I r ∅ s) (hv : v ∈ ownPages I) (hd : 1 ≤ d) (hd4 : d ≤ 4)
    (ht : frameAt s r v d = some t) :
    ∃ v' ∈ ownPages I, prefixAt d v' = prefixAt d v ∧ ∃ f, frameAt s r v' 4 = some f := by
  -- the induction goes down from the table to the page
  induction hk : 4 - d generalizing d v t with
  | zero =>
    obtain rfl : d = 4 := by omega
    exact ⟨v, hv, rfl, t, ht⟩
  | succ k ih =>
    have hr : t ≠ r := by
      rintro rfl
      have := (h.distinct hv hv (by omega) (Nat.zero_le 3) ht rfl).1
      omega
    obtain ⟨i, hi, hp⟩ := checkForPresentEntries_iff.mp
      (h.filled t ⟨v, hv, d, by omega, ht⟩ hr (Set.notMem_empty t))
    obtain ⟨w, hw, hq, rfl⟩ := exists_ownPage hv hd (by omega) hi
    have hnext := frameAt_succ_eq_some_iff.mpr
      ⟨t, (frameAt_congr_prefixAt hd4 hq).trans ht, hp, rfl⟩
    obtain ⟨v', hv', hq', hf⟩ := ih hw (by omega) (by omega) hnext (by omega)
    exact ⟨v', hv', (prefixAt_eq_of_le (Nat.le_succ d) (by omega) hq').trans hq, hf⟩

theorem Own.ownTables_subset (h : Own I r ∅ s)
    (hup : ∀ v ∈ ownPages I, ∀ d ≤ 3, ∀ t, frameAt s r v d = some t → frameAt s'' r v d = some t)
    (hup' : ∀ v ∈ ownPages I, ∀ d ≤ 3, ∀ t, frameAt s' r v d = some t →
      frameAt s'' r v d = some t)
    (hpages : ∀ v ∈ ownPages I, frameAt s' r v 4 = frameAt s r v 4) :
    ownTables I r s ⊆ ownTables I r s' := by
  rintro t ⟨v, hv, d, hd, ht⟩
  rcases Nat.eq_zero_or_pos d with rfl | hpos
  · exact ⟨v, hv, 0, hd, ht⟩
  · obtain ⟨v', hv', hq, f, hf⟩ := h.exists_mapped hv hpos (by omega) ht
    have ht' : frameAt s r v' d = some t := (frameAt_congr_prefixAt (by omega) hq).trans ht
    obtain ⟨u, hu⟩ := exists_frameAt_of_le ((hpages v' hv').trans hf) (show d ≤ 4 by omega)
    have hut : some u = some t := (hup' v' hv' d hd u hu).symm.trans (hup v' hv' d hd t ht')
    exact ⟨v', hv', d, hd, hu.trans hut⟩

theorem Own.translate_eq (h : Own I r X s) (hv : v ∈ ownPages I)
    (he : entryAt s r v 3 = some e) :
    AddrSpace.translate s r v = some
      { frame := ppn e, write := write e, user := user e, noExec := noExec e,
        cacheDisable := cacheDisable e } := by
  obtain ⟨e₀, e₁, e₂, hw⟩ := exists_walk he
  obtain ⟨_, _, _, _, h₀, h₁, h₂, h₃, hes⟩ := walk_eq_some_iff.mp hw
  obtain ⟨rfl, rfl, rfl, rfl⟩ : _ ∧ _ ∧ _ ∧ _ := by simpa using hes
  have hupper : ∀ d < 3, ∀ e', entryAt s r v d = some e' →
      write e' = true ∧ user e' = true ∧ noExec e' = false := by
    intro d hd e' he'
    obtain ⟨t, ht, rfl, hp⟩ := entryAt_eq_some_iff.mp he'
    exact h.upper hv hd ht hp
  obtain ⟨hw₀, hu₀, hx₀⟩ := hupper 0 (by decide) _ h₀
  obtain ⟨hw₁, hu₁, hx₁⟩ := hupper 1 (by decide) _ h₁
  obtain ⟨hw₂, hu₂, hx₂⟩ := hupper 2 (by decide) _ h₂
  rw [AddrSpace.translate, hw, Option.map_some]
  simp [translationOf, hw₀, hu₀, hx₀, hw₁, hu₁, hx₁, hw₂, hu₂, hx₂]

/-- Every own table below the PML4 has a present entry. -/
def Filled (I : Set ℕ) (pml4 : ℕ) (s : Vm) : Prop :=
  ∀ v d t, tableIndex 3 v ∈ I → 1 ≤ d → d ≤ 3 → frameAt s pml4 v d = some t →
    checkForPresentEntries s t = true

theorem mod_mem_ownPages (hv : tableIndex 3 v ∈ I) : v % 2 ^ 36 ∈ ownPages I :=
  ⟨Nat.mod_lt _ (by decide), by rwa [tableIndex_mod le_rfl]⟩

theorem Own.filled_all (h : Own I r ∅ s) : Filled I r s := by
  intro v d t hv hd hd3 ht
  have hown := mod_mem_ownPages hv
  rw [← frameAt_mod] at ht
  refine h.filled t ⟨_, hown, d, hd3, ht⟩ ?_ (Set.notMem_empty t)
  rintro rfl
  have := (h.distinct hown hown hd3 (Nat.zero_le 3) ht rfl).1
  omega

/-- Mapping the frame `p` at `v`, allocated when the state went from `s` to `s₁`, makes exactly
the pages that agree with `v` in the low 36 bits translate to `p`, and unmapping `v` restores
all translations and the page map. -/
structure RoundTrip (I : Set ℕ) (pml4 v p : ℕ) (flags : MapFlags) (s s₁ : Vm) : Prop where
  returns : 3 ≤ s₁.pageMap.freeFrames → ∃ s₂, map pml4 v p flags s₁ = some s₂
  mapped : ∀ s₂, map pml4 v p flags s₁ = some s₂ → Filled I pml4 s₂ ∧
    ∀ v', AddrSpace.translate s₂ pml4 v' =
      if v' % 2 ^ 36 = v % 2 ^ 36 then some
        { frame := p, write := flags.write, user := flags.user, noExec := flags.noexec,
          cacheDisable := flags.nocache }
      else AddrSpace.translate s pml4 v'
  undone : ∀ s₂, map pml4 v p flags s₁ = some s₂ → ∃ s₃, unmap pml4 v s₂ = some s₃ ∧
    Filled I pml4 s₃ ∧ s₃.pageMap = s.pageMap ∧
    ∀ v', AddrSpace.translate s₃ pml4 v' = AddrSpace.translate s pml4 v'

/-- No own table below the PML4 is empty, and `unmap` undoes `map`. -/
structure Undoes (I : Set ℕ) (pml4 : ℕ) (s : Vm) : Prop where
  filled : Filled I pml4 s
  roundTrip : ∀ v p flags s₁, tableIndex 3 v ∈ I → AddrSpace.translate s pml4 v = none →
    s.alloc = some (p, s₁) → RoundTrip I pml4 v p flags s s₁

theorem Own.alloc (h : Own I r ∅ s) (hv : v ∈ ownPages I) (ha : s.alloc = some (n, s₁)) :
    Own I r ∅ s₁ ∧ Offered I r s₁ n ∧ (∀ v' < 2 ^ 36, walk s₁ r v' = walk s r v') := by
  obtain ⟨-, -, hn, hz, -, hp⟩ := Vm.alloc_eq_some ha
  obtain ⟨hown, hother, hmap⟩ := h.fresh hn hz
  obtain ⟨hres, hwalk, hframe⟩ := h.toBacked.alloc hv ha (s₁.mem n)
  have hsame : s₁.setFrame n (s₁.mem n) = s₁ := by simp [Vm.setFrame]
  rw [hsame] at hres hwalk hframe
  refine ⟨h.respects hres, fun _ => ⟨?_, ?_, ?_⟩, hwalk⟩
  · rwa [ownTables_congr fun v' hv' d hd => hframe v' hv'.1 d (by omega)]
  · rwa [otherTables_congr fun v' hv' _ d hd => hframe v' hv' d (by omega)]
  · rw [mappings_congr (fun v' hv' => hframe v' hv'.1 4 le_rfl), hmap, hp]
    simp

theorem translate_of_walk (h : ∀ w < 2 ^ 36, w ≠ v % 2 ^ 36 → walk s' r w = walk s r w)
    (hne : v' % 2 ^ 36 ≠ v % 2 ^ 36) :
    AddrSpace.translate s' r v' = AddrSpace.translate s r v' := by
  rw [← translate_mod, ← translate_mod s, AddrSpace.translate, AddrSpace.translate,
    h _ (Nat.mod_lt _ (by decide)) hne]

/-- The tables that `unmap` leaves are those from before `map`, and so the counters are. -/
theorem Own.pageMap_undo {s₂ s₃ : Vm} (h₁ : Own I r ∅ s₁) (h₃ : Own I r ∅ s₃)
    (ha : s.alloc = some (n, s₁)) (hmap : Only I r v 0 s₁ s₂)
    (hup : ∀ v' ∈ ownPages I, ∀ d ≤ 3, ∀ t, frameAt s₁ r v' d = some t →
      frameAt s₂ r v' d = some t)
    (hunmap : Only I r v (fun g => if g = n ∧ g < s₂.pageMap.totalPages then 1 else 0) s₂ s₃)
    (hdown : ∀ v' ∈ ownPages I, ∀ d ≤ 3, ∀ t, frameAt s₃ r v' d = some t →
      frameAt s₂ r v' d = some t)
    (hpages : ∀ v' ∈ ownPages I, frameAt s₃ r v' 4 = frameAt s₁ r v' 4) :
    s₃.pageMap = s.pageMap := by
  obtain ⟨-, -, hn, hz, htot, hp⟩ := Vm.alloc_eq_some ha
  have hT : ownTables I r s₃ = ownTables I r s₁ :=
    (h₃.ownTables_subset hdown hup fun v' hv' => (hpages v' hv').symm).antisymm
      (h₁.ownTables_subset hup hdown hpages)
  have hsteady : s.pageMap.Steady s₁.pageMap := by
    simp only [Vm.alloc, Option.map_eq_some_iff, Prod.exists, Prod.mk.injEq] at ha
    obtain ⟨_, m, ha, rfl, rfl⟩ := ha
    exact .of_alloc ha
  refine ((hsteady.trans hmap.stats).trans hunmap.stats).eq_of_pagemap (funext fun f => ?_)
  have hc₁ := hmap.counters f
  have hc₂ := hunmap.counters f
  rw [hT] at hc₂
  rw [Pi.zero_apply] at hc₁
  rw [← UInt8.toNat_inj]
  rcases eq_or_ne f n with rfl | hne
  · rw [if_pos ⟨rfl, by rw [hmap.stats.total, htot]; exact hn⟩] at hc₂
    rw [hp, Function.update_self] at hc₁
    rw [hz]
    simp only [UInt8.toNat_one, UInt8.toNat_zero] at hc₁ ⊢
    omega
  · rw [if_neg fun hc => hne hc.1] at hc₂
    rw [hp, Function.update_of_ne hne] at hc₁
    omega

/-- With own tables in order, `unmap` undoes `map`. -/
theorem Own.undoes (h : Own I r ∅ s) : Undoes I r s := by
  refine ⟨h.filled_all, fun v p flags s₁ hI hun ha => ?_⟩
  have hv := mod_mem_ownPages hI
  obtain ⟨-, -, hn, -, -, -⟩ := Vm.alloc_eq_some ha
  obtain ⟨h₁, hoff, hwalk₁⟩ := h.alloc hv ha
  have hppn : ppn (ofPage p flags) = p := by
    rw [ppn_ofPage, Nat.mod_eq_of_lt (lt_of_lt_of_le hn s.pageMap.fits)]
  have hun₁ : frameAt s₁ r (v % 2 ^ 36) 4 = none := by
    rw [← translate_mod, translate_eq_none_iff, frameAt_four_eq, ← hwalk₁ _ hv.1] at hun
    rw [frameAt_four_eq, hun]
  have hoff' : Offered I r s₁ (ppn (ofPage p flags)) := by rwa [hppn]
  have hspec : ∀ s₂, AddrSpace.map r v p flags s₁ = some s₂ → _ := fun s₂ hm =>
    h₁.map hv hoff' ((mapFrom_mod s₁ v p flags le_rfl r).trans hm)
  refine ⟨fun hle => ?_, fun s₂ hm => ?_, fun s₂ hm => ?_⟩
  · obtain ⟨s₂, hs₂⟩ : ∃ s₂, AddrSpace.mapFrom (v % 2 ^ 36) p flags 3 r s₁ = some s₂ :=
      exists_mapFrom (d := 0) rfl rfl hun₁
        (fun k hk u hu => (h₁.table u ⟨_, hv, k, hk, hu⟩).2) hle
    exact ⟨s₂, (mapFrom_mod s₁ v p flags le_rfl r).symm.trans hs₂⟩
  · obtain ⟨h₂, honly, hself, -⟩ := hspec s₂ hm
    refine ⟨h₂.filled_all, fun v' => ?_⟩
    split_ifs with he
    · rw [← translate_mod, he, h₂.translate_eq hv hself, hppn]
      simp
    · exact translate_of_walk (fun w hw hne => (honly.walk w hw hne).trans (hwalk₁ w hw)) he
  · obtain ⟨h₂, honly, hself, hup⟩ := hspec s₂ hm
    have hf : frameAt s₂ r (v % 2 ^ 36) 4 = some p := by
      rw [frameAt_succ, hself, Option.map_some, hppn]
    obtain ⟨s₃, hs₃, h₃, honly'⟩ := h₂.unmap hv hf
    have hself' := frameAt_unmap_self hs₃
    have hwalk : ∀ w < 2 ^ 36, w ≠ v % 2 ^ 36 → walk s₃ r w = walk s₁ r w :=
      fun w hw hne => (honly'.walk w hw hne).trans (honly.walk w hw hne)
    refine ⟨s₃, (unmap_mod s₂ r v).symm.trans hs₃, h₃.filled_all, ?_, fun v' => ?_⟩
    · refine h₁.pageMap_undo h₃ ha honly hup honly'
        (fun v' _ d _ t ht => frameAt_of_unmap hs₃ ht) fun v' hv' => ?_
      rcases eq_or_ne v' (v % 2 ^ 36) with rfl | hne
      · rw [hself', hun₁]
      · rw [frameAt_four_eq, frameAt_four_eq, hwalk v' hv'.1 hne]
    · by_cases he : v' % 2 ^ 36 = v % 2 ^ 36
      · rw [← translate_mod, ← translate_mod s, he, translate_eq_none_iff.mpr hself', translate_mod,
          hun]
      · exact translate_of_walk (fun w hw hne => (hwalk w hw hne).trans (hwalk₁ w hw)) he

end AddrSpace

end Koerix
