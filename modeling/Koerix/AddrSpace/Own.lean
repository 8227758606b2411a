import Koerix.AddrSpace.Beside
import Mathlib.Data.Set.Card

/-! # Address spaces with tables of their own

An address space that is never cloned owns every table below some of the entries
of its PML4: the lower half of a user address space, or all of the kernel's. Each
of these tables is reached along one path, is in use, and is not empty. The tables
below the other entries belong to somebody else and are only looked at. Of a page
number the tables use the low 36 bits.
-/

namespace Koerix

open GenericPagingTable

theorem tableIndex_mod {level : ℕ} (hl : level ≤ 3) (v : ℕ) :
    tableIndex level (v % 2 ^ 36) = tableIndex level v := by
  rw [tableIndex_eq, tableIndex_eq]
  interval_cases level <;> norm_num <;> omega

namespace AddrSpace

section Low

variable (s : Vm) (pml4 v : ℕ)

theorem frameAt_mod (d : ℕ) : frameAt s pml4 (v % 2 ^ 36) d = frameAt s pml4 v d := by
  induction d with
  | zero => rfl
  | succ d ih => rw [frameAt, frameAt, ih, tableIndex_mod (by omega)]

theorem entryAt_mod (d : ℕ) : entryAt s pml4 (v % 2 ^ 36) d = entryAt s pml4 v d := by
  rw [entryAt, entryAt, frameAt_mod, tableIndex_mod (by omega)]

theorem translate_mod : AddrSpace.translate s pml4 (v % 2 ^ 36) = AddrSpace.translate s pml4 v := by
  simp only [AddrSpace.translate, walk_eq_entryAt, entryAt_mod]

theorem mapFrom_mod (phys : ℕ) (flags : MapFlags) {level : ℕ} (hl : level ≤ 3) (t : ℕ) :
    mapFrom (v % 2 ^ 36) phys flags level t s = mapFrom v phys flags level t s := by
  induction level generalizing t s with
  | zero => simp only [mapFrom, tableIndex_mod (Nat.zero_le 3)]
  | succ level ih => simp only [mapFrom, tableIndex_mod hl, ih _ (by omega)]

theorem chase_mod : chase s pml4 (v % 2 ^ 36) = chase s pml4 v := by
  funext d
  induction d with
  | zero => rfl
  | succ d ih => rw [chase, chase, ih, tableIndex_mod (by omega)]

theorem clearFrom_mod (tables : ℕ → ℕ) (d : ℕ) :
    clearFrom tables (v % 2 ^ 36) d s = clearFrom tables v d s := by
  induction d generalizing s with
  | zero => rw [clearFrom, clearFrom, tableIndex_mod le_rfl]
  | succ d ih => simp only [clearFrom, tableIndex_mod (show 3 - (d + 1) ≤ 3 by omega), ih]

theorem unmap_mod : unmap pml4 (v % 2 ^ 36) s = unmap pml4 v s := by
  simp only [unmap, resolve, chase_mod, clearFrom_mod]

end Low

/-- The page numbers below the PML4 entries in `I`. -/
def ownPages (I : Set ℕ) : Set ℕ := {v | v < 2 ^ 36 ∧ tableIndex 3 v ∈ I}

/-- The tables on the paths of these pages, from the PML4 to the page tables. -/
def ownTables (I : Set ℕ) (pml4 : ℕ) (s : Vm) : Set ℕ :=
  {t | ∃ v ∈ ownPages I, ∃ d ≤ 3, frameAt s pml4 v d = some t}

/-- The tables below the other entries of the PML4. -/
def otherTables (I : Set ℕ) (pml4 : ℕ) (s : Vm) : Set ℕ :=
  {t | ∃ v, v < 2 ^ 36 ∧ v ∉ ownPages I ∧ ∃ d, 1 ≤ d ∧ d ≤ 3 ∧ frameAt s pml4 v d = some t}

/-- The own pages that are mapped to the frame. -/
def mappings (I : Set ℕ) (pml4 : ℕ) (s : Vm) (f : ℕ) : Set ℕ :=
  {v | v ∈ ownPages I ∧ frameAt s pml4 v 4 = some f}

/-- What the address space relies on: its tables are in use and serve no other purpose, and
there is a reference for each mapping of a frame of the page map. -/
structure Backed (I : Set ℕ) (pml4 : ℕ) (s : Vm) : Prop where
  table : ∀ t ∈ ownTables I pml4 s, t < s.pageMap.totalPages ∧ s.pageMap.pagemap t ≠ 0
  other : ∀ t ∈ otherTables I pml4 s, t < s.pageMap.totalPages →
    s.pageMap.pagemap t ≠ 0 ∧ t ∉ ownTables I pml4 s
  page : ∀ f < s.pageMap.totalPages, (mappings I pml4 s f).Nonempty →
    f ∉ ownTables I pml4 s ∧ f ∉ otherTables I pml4 s
  refs : ∀ f < s.pageMap.totalPages,
    (mappings I pml4 s f).ncard ≤ (s.pageMap.pagemap f).toNat

/-- The own tables of an address space. Those in `X` may be empty for the moment. -/
structure Own (I : Set ℕ) (pml4 : ℕ) (X : Set ℕ) (s : Vm) : Prop extends Backed I pml4 s where
  distinct : Distinct (ownPages I) pml4 s
  filled : ∀ t ∈ ownTables I pml4 s, t ≠ pml4 → t ∉ X → checkForPresentEntries s t = true
  upper : ∀ {v d t}, v ∈ ownPages I → d < 3 → frameAt s pml4 v d = some t →
    present (s.entry t (tableIndex (3 - d) v)) = true →
    write (s.entry t (tableIndex (3 - d) v)) = true ∧
      user (s.entry t (tableIndex (3 - d) v)) = true ∧
      noExec (s.entry t (tableIndex (3 - d) v)) = false

variable {I X : Set ℕ} {r v v' d j k t u n f i : ℕ} {s s' s₁ : Vm} {e : GenericPagingTable}

theorem lt_iff_prefixAt : v < 2 ^ 36 ↔ prefixAt 0 v = 0 := by
  unfold prefixAt
  omega

theorem exists_ownPage (hv : v ∈ ownPages I) (hd : 1 ≤ d) (hd3 : d ≤ 3) (hi : i < 512) :
    ∃ v' ∈ ownPages I, prefixAt d v' = prefixAt d v ∧ tableIndex (3 - d) v' = i := by
  have hq : prefixAt (d + 1) (pageAt (d + 1) (512 * prefixAt d v + i)) = 512 * prefixAt d v + i :=
    prefixAt_pageAt _ _
  set v' := pageAt (d + 1) (512 * prefixAt d v + i)
  have hidx := tableIndex_lt (3 - d) v'
  rw [prefixAt_succ (by omega)] at hq
  have hp : prefixAt d v' = prefixAt d v := by omega
  refine ⟨v', ⟨?_, ?_⟩, hp, by omega⟩
  · rw [lt_iff_prefixAt, prefixAt_eq_of_le (Nat.zero_le d) (by omega) hp]
    exact lt_iff_prefixAt.mp hv.1
  · rw [tableIndex_eq_of_prefixAt_eq (d := 0) (by decide) (prefixAt_eq_of_le hd (by omega) hp)]
    exact hv.2

theorem mappings_finite (I : Set ℕ) (r : ℕ) (s : Vm) (f : ℕ) : (mappings I r s f).Finite :=
  (Set.finite_lt_nat (2 ^ 36)).subset fun _ hv => hv.1.1

theorem walk_eq_none_iff : walk s r v = none ↔ frameAt s r v 4 = none := by
  rcases hw : walk s r v with _ | es
  · simp only [true_iff]
    by_contra hn
    obtain ⟨f, hf⟩ := Option.ne_none_iff_exists'.mp hn
    rw [frameAt_succ, Option.map_eq_some_iff] at hf
    obtain ⟨e, he, -⟩ := hf
    obtain ⟨e₀, e₁, e₂, he⟩ := exists_walk he
    simp [hw] at he
  · simp [frameAt_four hw]

theorem translate_eq_none_iff : AddrSpace.translate s r v = none ↔ frameAt s r v 4 = none := by
  rw [AddrSpace.translate, Option.map_eq_none_iff, walk_eq_none_iff]

theorem checkForPresentEntries_iff :
    checkForPresentEntries s t = true ↔ ∃ i < 512, present (s.entry t i) = true := by
  simp [checkForPresentEntries]

theorem checkForPresentEntries_of_present (h : present (s.entry t (tableIndex d v)) = true) :
    checkForPresentEntries s t = true :=
  checkForPresentEntries_iff.mpr ⟨_, tableIndex_lt d v, h⟩

theorem checkForPresentEntries_congr (h : ∀ i < 512, s'.entry t i = s.entry t i) :
    checkForPresentEntries s' t = checkForPresentEntries s t := by
  rw [Bool.eq_iff_iff, checkForPresentEntries_iff, checkForPresentEntries_iff]
  refine exists_congr fun i => and_congr_right fun hi => ?_
  rw [h i hi]

theorem ownTables_congr (h : ∀ v ∈ ownPages I, ∀ d ≤ 3, frameAt s' r v d = frameAt s r v d) :
    ownTables I r s' = ownTables I r s := by
  ext t
  refine exists_congr fun v => and_congr_right fun hv => exists_congr fun d =>
    and_congr_right fun hd => ?_
  rw [h v hv d hd]

theorem otherTables_congr (h : ∀ v < 2 ^ 36, v ∉ ownPages I → ∀ d ≤ 3,
    frameAt s' r v d = frameAt s r v d) : otherTables I r s' = otherTables I r s := by
  ext t
  refine exists_congr fun v => and_congr_right fun hv => and_congr_right fun ho =>
    exists_congr fun d => and_congr_right fun _ => and_congr_right fun hd => ?_
  rw [h v hv ho d hd]

theorem mappings_congr (h : ∀ v ∈ ownPages I, frameAt s' r v 4 = frameAt s r v 4) (f : ℕ) :
    mappings I r s' f = mappings I r s f := by
  ext v
  refine and_congr_right fun hv => ?_
  rw [h v hv]

theorem mem_tables (hv : v ∈ ownPages I) (hv' : v' < 2 ^ 36) (hk : k ≤ 3)
    (hu : frameAt s r v' k = some u) : u ∈ ownTables I r s ∨ u ∈ otherTables I r s := by
  by_cases ho : v' ∈ ownPages I
  · exact Or.inl ⟨v', ho, k, hk, hu⟩
  · rcases Nat.eq_zero_or_pos k with rfl | hpos
    · exact Or.inl ⟨v, hv, 0, Nat.zero_le 3, hu⟩
    · exact Or.inr ⟨v', hv', ho, k, hpos, hk, hu⟩

theorem Backed.fresh (h : Backed I r s) (hn : n < s.pageMap.totalPages)
    (hz : s.pageMap.pagemap n = 0) :
    n ∉ ownTables I r s ∧ n ∉ otherTables I r s ∧ mappings I r s n = ∅ := by
  refine ⟨fun hc => (h.table n hc).2 hz, fun hc => (h.other n hc hn).1 hz, ?_⟩
  have hle := h.refs n hn
  rw [hz] at hle
  exact (Set.ncard_eq_zero (mappings_finite I r s n)).mp (Nat.le_zero.mp hle)

/-- What the rest of the kernel may do between two calls: everything that leaves the entries of
the own tables alone and gives no reference away that the address space relies on. -/
structure Respects (I : Set ℕ) (pml4 : ℕ) (s s' : Vm) : Prop where
  total : s'.pageMap.totalPages = s.pageMap.totalPages
  entries : ∀ v ∈ ownPages I, ∀ d ≤ 3, ∀ t, frameAt s pml4 v d = some t →
    s'.entry t (tableIndex (3 - d) v) = s.entry t (tableIndex (3 - d) v)
  backed : Backed I pml4 s'

theorem Respects.frameAt_eq (h : Respects I r s s') (hv : v ∈ ownPages I) (hd : d ≤ 4) :
    frameAt s' r v d = frameAt s r v d := by
  refine frameAt_congr fun k hk t ht => ?_
  rw [h.entries v hv k (by omega) t ht]
  exact ⟨rfl, fun _ => rfl⟩

theorem Respects.walk_eq (h : Respects I r s s') (hv : v ∈ ownPages I) :
    walk s' r v = walk s r v :=
  walk_congr fun k hk t ht => h.entries v hv k (by omega) t ht

namespace Own

theorem mono {Y : Set ℕ} (h : Own I r X s) (hXY : X ⊆ Y) : Own I r Y s :=
  { h with filled := fun t ht hr hY => h.filled t ht hr fun hX => hY (hXY hX) }

theorem respects (h : Own I r X s) (hr : Respects I r s s') : Own I r X s' := by
  have htables : ownTables I r s' = ownTables I r s :=
    ownTables_congr fun v hv d hd => hr.frameAt_eq hv (by omega)
  refine { hr.backed with distinct := ?_, filled := ?_, upper := ?_ }
  · intro v v' d d' t hv hv' hd hd' ht ht'
    rw [hr.frameAt_eq hv (by omega)] at ht
    rw [hr.frameAt_eq hv' (by omega)] at ht'
    exact h.distinct hv hv' hd hd' ht ht'
  · rw [htables]
    rintro t ⟨v, hv, d, hd, ht⟩ hne hX
    have hpos : 1 ≤ d := by
      rcases Nat.eq_zero_or_pos d with rfl | hpos
      · exact absurd (Option.some.inj ht).symm hne
      · exact hpos
    rw [checkForPresentEntries_congr (s := s)]
    · exact h.filled t ⟨v, hv, d, hd, ht⟩ hne hX
    · intro i hi
      obtain ⟨w, hw, hq, rfl⟩ := exists_ownPage hv hpos hd hi
      exact hr.entries w hw d hd t ((frameAt_congr_prefixAt (by omega) hq).trans ht)
  · intro v d t hv hd ht hp
    rw [hr.frameAt_eq hv (by omega)] at ht
    rw [hr.entries v hv d (by omega) t ht] at hp ⊢
    exact h.upper hv hd ht hp

/-- The entry that a path uses in a table is not the one that the own page `v` uses, unless the
two pages go on together. -/
theorem slot_ne (h : Own I r X s) (hv : v ∈ ownPages I) (hd : d ≤ 3)
    (ht : frameAt s r v d = some t) (hv' : v' < 2 ^ 36) (hk : k ≤ 3)
    (hu : frameAt s r v' k = some u)
    (hne : v' ∈ ownPages I → k = d → prefixAt (d + 1) v' ≠ prefixAt (d + 1) v) :
    u ≠ t ∨ tableIndex (3 - k) v' ≠ tableIndex (3 - d) v := by
  by_contra hc
  obtain ⟨rfl, hi⟩ : u = t ∧ tableIndex (3 - k) v' = tableIndex (3 - d) v := by tauto
  by_cases ho : v' ∈ ownPages I
  · obtain ⟨rfl, hq⟩ := h.distinct ho hv hk hd hu ht
    exact hne ho rfl (by rw [prefixAt_succ (by omega), prefixAt_succ (by omega), hq, hi])
  · have hown : u ∈ ownTables I r s := ⟨v, hv, d, hd, ht⟩
    rcases Nat.eq_zero_or_pos k with rfl | hpos
    · obtain ⟨rfl, -⟩ := h.distinct hv hv hd (Nat.zero_le 3) ht hu
      refine ho ⟨hv', ?_⟩
      rw [show tableIndex 3 v' = tableIndex 3 v from hi]
      exact hv.2
    · exact (h.other u ⟨v', hv', ho, k, hpos, hk, hu⟩ (h.table u hown).1).2 hown

theorem frameAt_setEntry (h : Own I r X s) (hv : v ∈ ownPages I) (hd : d ≤ 3)
    (ht : frameAt s r v d = some t) (hv' : v' < 2 ^ 36) (hj : j ≤ 4)
    (hne : v' ∈ ownPages I → d < j → prefixAt (d + 1) v' ≠ prefixAt (d + 1) v) :
    frameAt (s.setEntry t (tableIndex (3 - d) v) e) r v' j = frameAt s r v' j := by
  refine frameAt_congr fun k hk u hu => ?_
  rw [Vm.entry_setEntry_of_ne (h.slot_ne hv hd ht hv' (by omega) hu fun ho hkd =>
    hne ho (by omega))]
  exact ⟨rfl, fun _ => rfl⟩

theorem walk_setEntry (h : Own I r X s) (hv : v ∈ ownPages I) (hd : d ≤ 3)
    (ht : frameAt s r v d = some t) (hv' : v' < 2 ^ 36)
    (hne : v' ∈ ownPages I → prefixAt (d + 1) v' ≠ prefixAt (d + 1) v) :
    walk (s.setEntry t (tableIndex (3 - d) v) e) r v' = walk s r v' :=
  walk_congr fun _ hk _ hu => Vm.entry_setEntry_of_ne
    (h.slot_ne hv hd ht hv' (by omega) hu fun ho _ => hne ho)

end Own

end AddrSpace

end Koerix
