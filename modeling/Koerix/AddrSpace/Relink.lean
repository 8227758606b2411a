import Koerix.AddrSpace.Own
import Koerix.AddrSpace.Unmap
import Mathlib.Algebra.Order.Group.Indicator

/-! # Hanging frames into own tables and taking them out

The steps that `map` and `unmap` are made of, on the own tables of an address space:
a fresh table or a page is hung into an absent entry, and the entry of a page or of
an empty table is cleared while the frame gives up its reference. Each step changes
one path, and the own tables by at most one table.
-/

namespace Koerix

open GenericPagingTable

namespace AddrSpace

variable {I X : Set ℕ} {r v v' d j k t u n f g i phys : ℕ} {s s' s₁ : Vm}
  {e : GenericPagingTable} {flags : MapFlags}

theorem mem_of_off (hv : v ∈ ownPages I) (ho : n ∉ ownTables I r s) (ho' : n ∉ otherTables I r s)
    (hmem : ∀ g ≠ n, s'.mem g = s.mem g) (hv' : v' < 2 ^ 36) (hk : k ≤ 3)
    (hu : frameAt s r v' k = some u) : s'.mem u = s.mem u := by
  refine hmem u ?_
  rintro rfl
  rcases mem_tables hv hv' hk hu with hc | hc
  · exact ho hc
  · exact ho' hc

/-- Taking a free frame and filling it. -/
theorem Backed.alloc (h : Backed I r s) (hv : v ∈ ownPages I) (ha : s.alloc = some (n, s₁))
    (words : ℕ → BitVec 64) :
    Respects I r s (s₁.setFrame n words) ∧
      (∀ v' < 2 ^ 36, walk (s₁.setFrame n words) r v' = walk s r v') ∧
      ∀ v' < 2 ^ 36, ∀ d ≤ 4, frameAt (s₁.setFrame n words) r v' d = frameAt s r v' d := by
  obtain ⟨hmem, -, hn, hz, htot, hp⟩ := Vm.alloc_eq_some ha
  obtain ⟨hown, hother, hmap⟩ := h.fresh hn hz
  have hkeep : ∀ g ≠ n, (s₁.setFrame n words).mem g = s.mem g := by
    intro g hg
    rw [Vm.mem_setFrame_of_ne hg, hmem]
  have hsame : ∀ v' < 2 ^ 36, ∀ k ≤ 3, ∀ u, frameAt s r v' k = some u →
      (s₁.setFrame n words).mem u = s.mem u :=
    fun v' hv' k hk u hu => mem_of_off hv hown hother hkeep hv' hk hu
  have hframe : ∀ v' < 2 ^ 36, ∀ d ≤ 4,
      frameAt (s₁.setFrame n words) r v' d = frameAt s r v' d :=
    fun v' hv' d hd => frameAt_congr_mem fun k hk u hu => hsame v' hv' k (by omega) u hu
  have hT : ownTables I r (s₁.setFrame n words) = ownTables I r s :=
    ownTables_congr fun v' hv' d hd => hframe v' hv'.1 d (by omega)
  have hO : otherTables I r (s₁.setFrame n words) = otherTables I r s :=
    otherTables_congr fun v' hv' _ d hd => hframe v' hv' d (by omega)
  have hM : ∀ f, mappings I r (s₁.setFrame n words) f = mappings I r s f :=
    mappings_congr fun v' hv' => hframe v' hv'.1 4 le_rfl
  have hcount : ∀ f ≠ n, (s₁.setFrame n words).pageMap.pagemap f = s.pageMap.pagemap f := by
    intro f hf
    rw [Vm.pageMap_setFrame, hp, Function.update_of_ne hf]
  refine ⟨⟨htot, fun v' hv' d hd t ht => ?_, ⟨?_, ?_, ?_, ?_⟩⟩, fun v' hv' => ?_, hframe⟩
  · exact Vm.entry_congr (hsame v' hv'.1 d hd t ht)
  · rw [hT]
    intro t ht
    have hne : t ≠ n := by rintro rfl; exact hown ht
    rw [hcount t hne, Vm.pageMap_setFrame, htot]
    exact h.table t ht
  · rw [hT, hO]
    intro t ht hlt
    have hne : t ≠ n := by rintro rfl; exact hother ht
    rw [hcount t hne]
    exact h.other t ht (htot ▸ hlt)
  · intro f hf
    rw [hT, hO, hM]
    exact h.page f (htot ▸ hf)
  · intro f hf
    rw [hM]
    rcases eq_or_ne f n with rfl | hne
    · simp [hmap]
    · rw [hcount f hne]
      exact h.refs f (htot ▸ hf)
  · exact walk_congr fun k hk u hu => Vm.entry_congr (hsame v' hv' k (by omega) u hu)

/-- The frame may be mapped: it is not a table of the address space, and besides the references
of its mappings there is one that the new mapping takes over. -/
def Offered (I : Set ℕ) (pml4 : ℕ) (s : Vm) (p : ℕ) : Prop :=
  p < s.pageMap.totalPages → p ∉ ownTables I pml4 s ∧ p ∉ otherTables I pml4 s ∧
    (mappings I pml4 s p).ncard < (s.pageMap.pagemap p).toNat

namespace Own

/-- Hanging a frame into an absent entry keeps the own tables in order. A new table is empty, and
the table that it is hung into is not empty any more. -/
theorem hang (h : Own I r X s) (hX : X ⊆ {t}) (hv : v ∈ ownPages I) (hd : d ≤ 3)
    (ht : frameAt s r v d = some t) (he : present e = true) (hn : ppn e ∉ ownTables I r s)
    (hfree : present (s.entry t (tableIndex (3 - d) v)) = false)
    (hempty : d < 3 → ∀ i, present (s.entry (ppn e) i) = false)
    (hupper : d < 3 → write e = true ∧ user e = true ∧ noExec e = false)
    (hb : Backed I r (s.setEntry t (tableIndex (3 - d) v) e)) :
    Own I r (if d < 3 then {ppn e} else ∅) (s.setEntry t (tableIndex (3 - d) v) e) := by
  have hnt : ppn e ≠ t := fun hc => hn (hc ▸ ⟨v, hv, d, hd, ht⟩)
  have hiff : ∀ v' ∈ ownPages I, ∀ j ≤ 4, ∀ f,
      frameAt (s.setEntry t (tableIndex (3 - d) v) e) r v' j = some f ↔ _ :=
    fun v' hv' j hj f =>
      h.distinct.frameAt_link hv hv' (by omega) hj ht hfree hnt hempty he rfl
  refine { hb with distinct := ?_, filled := ?_, upper := ?_ }
  · intro v₁ v₂ d₁ d₂ f hv₁ hv₂ hd₁ hd₂ hf₁ hf₂
    rcases (hiff v₁ hv₁ d₁ (by omega) f).mp hf₁ with ho₁ | ⟨rfl, hq₁, rfl⟩
    · rcases (hiff v₂ hv₂ d₂ (by omega) f).mp hf₂ with ho₂ | ⟨rfl, hq₂, rfl⟩
      · exact h.distinct hv₁ hv₂ hd₁ hd₂ ho₁ ho₂
      · exact absurd ⟨v₁, hv₁, d₁, hd₁, ho₁⟩ hn
    · rcases (hiff v₂ hv₂ d₂ (by omega) _).mp hf₂ with ho₂ | ⟨rfl, hq₂, -⟩
      · exact absurd ⟨v₂, hv₂, d₂, hd₂, ho₂⟩ hn
      · exact ⟨rfl, hq₁.trans hq₂.symm⟩
  · rintro u ⟨v', hv', j, hj, hu⟩ hr hY
    rcases eq_or_ne u t with rfl | hut
    · exact checkForPresentEntries_of_present (d := 3 - d) (v := v) (by simpa using he)
    · rw [checkForPresentEntries_congr fun i _ => Vm.entry_setEntry_of_ne (Or.inl hut)]
      rcases (hiff v' hv' j (by omega) u).mp hu with ho | ⟨rfl, -, rfl⟩
      · exact h.filled u ⟨v', hv', j, hj, ho⟩ hr fun hx => hut (hX hx)
      · rw [if_pos (by omega)] at hY
        exact absurd rfl hY
  · intro v' j u hv' hj hu hp
    rcases (hiff v' hv' j (by omega) u).mp hu with ho | ⟨rfl, -, rfl⟩
    · by_cases hslot : u ≠ t ∨ tableIndex (3 - j) v' ≠ tableIndex (3 - d) v
      · rw [Vm.entry_setEntry_of_ne hslot] at hp ⊢
        exact h.upper hv' hj ho hp
      · obtain ⟨rfl, hi⟩ : u = t ∧ tableIndex (3 - j) v' = tableIndex (3 - d) v := by tauto
        obtain ⟨rfl, -⟩ := h.distinct hv' hv (by omega) hd ho ht
        rw [hi, Vm.entry_setEntry_self]
        exact hupper hj
    · rw [Vm.entry_setEntry_of_ne (Or.inl hnt), hempty (by omega)] at hp
      cases hp

/-- One more table below an absent entry. -/
theorem hangTable (h : Own I r X s) (hX : X ⊆ {t}) (hv : v ∈ ownPages I) (hd : d < 3)
    (ht : frameAt s r v d = some t)
    (hfree : present (s.entry t (tableIndex (3 - d) v)) = false)
    (hn : n < s.pageMap.totalPages) (hused : s.pageMap.pagemap n ≠ 0)
    (hown : n ∉ ownTables I r s) (hother : n ∉ otherTables I r s)
    (hmap : mappings I r s n = ∅) (hempty : ∀ i, present (s.entry n i) = false) :
    Own I r {n} (s.setEntry t (tableIndex (3 - d) v) (ofTable n)) ∧
      ownTables I r (s.setEntry t (tableIndex (3 - d) v) (ofTable n)) =
        insert n (ownTables I r s) ∧
      otherTables I r (s.setEntry t (tableIndex (3 - d) v) (ofTable n)) = otherTables I r s ∧
      frameAt (s.setEntry t (tableIndex (3 - d) v) (ofTable n)) r v (d + 1) = some n ∧
      ∀ v' < 2 ^ 36, walk (s.setEntry t (tableIndex (3 - d) v) (ofTable n)) r v' =
        walk s r v' := by
  have hppn : ppn (ofTable n) = n := by
    rw [ppn_ofTable, Nat.mod_eq_of_lt (lt_of_lt_of_le hn s.pageMap.fits)]
  have hnt : n ≠ t := fun hc => hown (hc ▸ ⟨v, hv, d, by omega, ht⟩)
  have hiff : ∀ v' ∈ ownPages I, ∀ j ≤ 4, ∀ f,
      frameAt (s.setEntry t (tableIndex (3 - d) v) (ofTable n)) r v' j = some f ↔ _ :=
    fun v' hv' j hj f => h.distinct.frameAt_link hv hv' (by omega) hj ht hfree hnt
      (fun _ => hempty) (present_ofTable n) hppn
  have hself := (hiff v hv (d + 1) (by omega) n).mpr (Or.inr ⟨rfl, rfl, rfl⟩)
  have hpage : ∀ v' ∈ ownPages I,
      frameAt (s.setEntry t (tableIndex (3 - d) v) (ofTable n)) r v' 4 = frameAt s r v' 4 := by
    intro v' hv'
    ext f
    rw [hiff v' hv' 4 le_rfl]
    constructor
    · rintro (ho | ⟨hd4, -⟩)
      · exact ho
      · omega
    · exact Or.inl
  have hT : ownTables I r (s.setEntry t (tableIndex (3 - d) v) (ofTable n)) =
      insert n (ownTables I r s) := by
    ext u
    constructor
    · rintro ⟨v', hv', j, hj, hu⟩
      rcases (hiff v' hv' j (by omega) u).mp hu with ho | ⟨-, -, rfl⟩
      · exact Or.inr ⟨v', hv', j, hj, ho⟩
      · exact Or.inl rfl
    · rintro (rfl | ⟨v', hv', j, hj, hu⟩)
      · exact ⟨v, hv, d + 1, by omega, hself⟩
      · exact ⟨v', hv', j, hj, (hiff v' hv' j (by omega) u).mpr (Or.inl hu)⟩
  have hO : otherTables I r (s.setEntry t (tableIndex (3 - d) v) (ofTable n)) =
      otherTables I r s :=
    otherTables_congr fun v' hv' ho j hj =>
      h.frameAt_setEntry hv (by omega) ht hv' (by omega) fun hc => absurd hc ho
  have hM := mappings_congr (I := I) hpage
  have hb : Backed I r (s.setEntry t (tableIndex (3 - d) v) (ofTable n)) := by
    refine ⟨?_, ?_, ?_, ?_⟩
    · rw [hT]
      rintro u (rfl | hu)
      · exact ⟨hn, hused⟩
      · exact h.table u hu
    · rw [hT, hO]
      intro u hu hlt
      obtain ⟨hne, hnot⟩ := h.other u hu hlt
      refine ⟨hne, ?_⟩
      rintro (rfl | hu')
      · exact hother hu
      · exact hnot hu'
    · intro f hf
      rw [hT, hO, hM]
      intro hmapped
      obtain ⟨hnot, hnot'⟩ := h.page f hf hmapped
      refine ⟨?_, hnot'⟩
      rintro (rfl | hu')
      · simp [hmap] at hmapped
      · exact hnot hu'
    · intro f hf
      rw [hM]
      exact h.refs f hf
  refine ⟨?_, hT, hO, hself, fun v' hv' => ?_⟩
  · have hown' := h.hang hX hv (by omega) ht (present_ofTable n) (by rwa [hppn]) hfree
      (fun _ => by rwa [hppn]) (fun _ => by simp) hb
    rwa [if_pos hd, hppn] at hown'
  · by_cases hc : v' ∈ ownPages I ∧ prefixAt (d + 1) v' = prefixAt (d + 1) v
    · -- neither before nor after does the path of `v'` get through this entry
      have hnone : frameAt s r v' 4 = none := by
        refine frameAt_none_of_le (d := d + 1) ?_ (by omega)
        rw [frameAt_congr_prefixAt (by omega) hc.2, frameAt, ht, Option.bind_some]
        simp [hfree]
      rw [walk_eq_none_iff.mpr hnone, walk_eq_none_iff, hpage v' hc.1, hnone]
    · exact h.walk_setEntry hv (by omega) ht hv' fun ho hq => hc ⟨ho, hq⟩

/-- The page at the end of the chain. -/
theorem hangPage (h : Own I r X s) (hX : X ⊆ {t}) (hv : v ∈ ownPages I)
    (ht : frameAt s r v 3 = some t) (hfree : present (s.entry t (tableIndex 0 v)) = false)
    (he : present e = true) (hp : Offered I r s (ppn e)) :
    Own I r ∅ (s.setEntry t (tableIndex 0 v) e) ∧
      ownTables I r (s.setEntry t (tableIndex 0 v) e) = ownTables I r s ∧
      entryAt (s.setEntry t (tableIndex 0 v) e) r v 3 = some e ∧
      ∀ v' < 2 ^ 36, v' ≠ v → walk (s.setEntry t (tableIndex 0 v) e) r v' = walk s r v' := by
  have hown : ppn e ∉ ownTables I r s := fun hc => (hp (h.table _ hc).1).1 hc
  have hnt : ppn e ≠ t := fun hc => hown (hc ▸ ⟨v, hv, 3, le_rfl, ht⟩)
  have hiff : ∀ v' ∈ ownPages I, ∀ j ≤ 4, ∀ f,
      frameAt (s.setEntry t (tableIndex 0 v) e) r v' j = some f ↔ _ :=
    fun v' hv' j hj f => h.distinct.frameAt_link hv hv' (d := 3) (by decide) hj ht hfree hnt
      (fun h3 => absurd h3 (lt_irrefl 3)) he rfl
  have hframe : ∀ v' < 2 ^ 36, ∀ j ≤ 3,
      frameAt (s.setEntry t (tableIndex 0 v) e) r v' j = frameAt s r v' j :=
    fun v' hv' j hj => h.frameAt_setEntry hv le_rfl ht hv' (by omega) fun _ hlt => by omega
  have hT : ownTables I r (s.setEntry t (tableIndex 0 v) e) = ownTables I r s :=
    ownTables_congr fun v' hv' => hframe v' hv'.1
  have hO : otherTables I r (s.setEntry t (tableIndex 0 v) e) = otherTables I r s :=
    otherTables_congr fun v' hv' _ => hframe v' hv'
  have hM : ∀ f, mappings I r (s.setEntry t (tableIndex 0 v) e) f ⊆
      if f = ppn e then insert v (mappings I r s f) else mappings I r s f := by
    rintro f v' ⟨hv', hf⟩
    rcases (hiff v' hv' 4 le_rfl f).mp hf with ho | ⟨-, hq, rfl⟩
    · split_ifs
      · exact Or.inr ⟨hv', ho⟩
      · exact ⟨hv', ho⟩
    · rw [if_pos rfl]
      exact Or.inl (by simpa using hq)
  have hb : Backed I r (s.setEntry t (tableIndex 0 v) e) := by
    refine ⟨by rw [hT]; exact h.table, by rw [hT, hO]; exact h.other, ?_, ?_⟩
    · rintro f hf ⟨v', hv', hmapped⟩
      rw [hT, hO]
      rcases (hiff v' hv' 4 le_rfl f).mp hmapped with ho | ⟨-, -, rfl⟩
      · exact h.page f hf ⟨v', hv', ho⟩
      · exact ⟨(hp hf).1, (hp hf).2.1⟩
    · intro f hf
      have hle := Set.ncard_le_ncard (hM f) (by
        split_ifs
        · exact (mappings_finite I r s f).insert v
        · exact mappings_finite I r s f)
      refine hle.trans ?_
      split_ifs with hfe
      · have hlt := (hp (hfe ▸ hf)).2.2
        rw [← hfe] at hlt
        exact (Set.ncard_insert_le v _).trans hlt
      · exact h.refs f hf
  refine ⟨?_, hT, ?_, fun v' hv' hne => ?_⟩
  · simpa using h.hang hX hv le_rfl ht he hown hfree (fun h3 => absurd h3 (lt_irrefl 3))
      (fun h3 => absurd h3 (lt_irrefl 3)) hb
  · refine entryAt_eq_some_iff.mpr ⟨t, (hframe v hv.1 3 le_rfl).trans ht, ?_, he⟩
    exact Vm.entry_setEntry_self
  · refine h.walk_setEntry (d := 3) hv le_rfl ht hv' fun _ hq => hne ?_
    simpa using hq

theorem clear (h : Own I r X s) (hmem : s'.mem = (s.setEntry t i 0).mem) (hb : Backed I r s')
    (hX : ∀ x ∈ X, x ∉ ownTables I r s') : Own I r {t} s' := by
  have hentry : ∀ u j, s'.entry u j = (s.setEntry t i 0).entry u j :=
    fun u j => Vm.entry_congr (congrFun hmem u)
  have hold : ∀ {v' j u}, frameAt s' r v' j = some u → frameAt s r v' j = some u := by
    intro v' j u hu
    rw [frameAt_congr_mem fun k _ w _ => congrFun hmem w] at hu
    exact frameAt_of_clear hu
  refine { hb with distinct := ?_, filled := ?_, upper := ?_ }
  · intro v₁ v₂ d₁ d₂ f hv₁ hv₂ hd₁ hd₂ hf₁ hf₂
    exact h.distinct hv₁ hv₂ hd₁ hd₂ (hold hf₁) (hold hf₂)
  · rintro u hu hr hut
    have hux : u ∉ X := fun hx => hX u hx hu
    obtain ⟨v', hv', j, hj, hu⟩ := hu
    rw [checkForPresentEntries_congr fun k _ =>
      (hentry u k).trans (Vm.entry_setEntry_of_ne (Or.inl hut))]
    exact h.filled u ⟨v', hv', j, hj, hold hu⟩ hr hux
  · intro v' j u hv' hj hu hp
    rw [hentry] at hp ⊢
    rcases entry_clear s t i u (tableIndex (3 - j) v') with he | ⟨he, -⟩
    · rw [he] at hp ⊢
      exact h.upper hv' hj (hold hu) hp
    · rw [he, show (0 : GenericPagingTable) = 0#64 from rfl, present_zero] at hp
      cases hp

/-- Taking an empty table out of the table above it, and releasing it. -/
theorem cutTable (h : Own I r X s) (hX : X ⊆ {f}) (hv : v ∈ ownPages I) (hd : d < 3)
    (ht : frameAt s r v d = some t) (hf : frameAt s r v (d + 1) = some f)
    (hempty : checkForPresentEntries s f = false) (hm : s.free f = some s₁) :
    Own I r {t} (s₁.setEntry t (tableIndex (3 - d) v) 0) ∧ f ∈ ownTables I r s ∧
      ownTables I r (s₁.setEntry t (tableIndex (3 - d) v) 0) = ownTables I r s \ {f} ∧
      ∀ v' < 2 ^ 36, walk (s₁.setEntry t (tableIndex (3 - d) v) 0) r v' = walk s r v' := by
  have hown : f ∈ ownTables I r s := ⟨v, hv, d + 1, by omega, hf⟩
  obtain ⟨hlt, -⟩ := h.table f hown
  obtain ⟨hmem, -, -, htot, hp⟩ := Vm.free_eq_some hm hlt
  have hmem' : (s₁.setEntry t (tableIndex (3 - d) v) 0).mem =
      (s.setEntry t (tableIndex (3 - d) v) 0).mem := by
    simp only [Vm.setEntry, hmem]
  set s' := s₁.setEntry t (tableIndex (3 - d) v) 0
  have hframe : ∀ v' j, frameAt s' r v' j =
      frameAt (s.setEntry t (tableIndex (3 - d) v) 0) r v' j :=
    fun v' j => frameAt_congr_mem fun k _ u _ => congrFun hmem' u
  have hclear : ∀ v' ∈ ownPages I, ∀ j ≤ 4, frameAt s' r v' j = _ := fun v' hv' j hj =>
    (hframe v' j).trans (h.distinct.frameAt_clear hv hv' (by omega) hj ht)
  -- no path goes on from the empty table
  have hstop : ∀ v', prefixAt (d + 1) v' = prefixAt (d + 1) v → ∀ j, d + 2 ≤ j →
      frameAt s r v' j = none := by
    intro v' hq j hj
    refine frameAt_none_of_le (d := d + 2) ?_ hj
    rw [frameAt, frameAt_congr_prefixAt (by omega) hq, hf, Option.bind_some]
    simp [not_present_of_check hempty _ (tableIndex_lt _ _)]
  have hpage : ∀ v' ∈ ownPages I, frameAt s' r v' 4 = frameAt s r v' 4 := by
    intro v' hv'
    rw [hclear v' hv' 4 le_rfl]
    split_ifs with hc
    · exact (hstop v' hc.2 4 (by omega)).symm
    · rfl
  have hT : ownTables I r s' = ownTables I r s \ {f} := by
    ext u
    constructor
    · rintro ⟨v', hv', j, hj, hu⟩
      rw [hclear v' hv' j (by omega), Option.ite_none_left_eq_some] at hu
      refine ⟨⟨v', hv', j, hj, hu.2⟩, ?_⟩
      rintro rfl
      obtain ⟨rfl, hq⟩ := h.distinct hv' hv hj (by omega) hu.2 hf
      exact hu.1 ⟨Nat.lt_succ_self d, hq⟩
    · rintro ⟨⟨v', hv', j, hj, hu⟩, huf⟩
      refine ⟨v', hv', j, hj, ?_⟩
      rw [hclear v' hv' j (by omega), if_neg, hu]
      rintro ⟨hdj, hq⟩
      rcases eq_or_ne j (d + 1) with rfl | hne
      · rw [frameAt_congr_prefixAt (by omega) hq, hf, Option.some.injEq] at hu
        exact huf hu.symm
      · simp [hstop v' hq j (by omega)] at hu
  have hO : otherTables I r s' = otherTables I r s := by
    refine otherTables_congr fun v' hv' ho j hj => (hframe v' j).trans ?_
    exact h.frameAt_setEntry hv (by omega) ht hv' (by omega) fun hc => absurd hc ho
  have hM := mappings_congr (I := I) hpage
  have hcount : ∀ g ≠ f, s'.pageMap.pagemap g = s.pageMap.pagemap g := by
    intro g hg
    rw [Vm.pageMap_setEntry, hp, Function.update_of_ne hg]
  have hb : Backed I r s' := by
    refine ⟨?_, ?_, ?_, ?_⟩
    · rw [hT]
      rintro u ⟨hu, huf⟩
      rw [hcount u huf, Vm.pageMap_setEntry, htot]
      exact h.table u hu
    · rw [hT, hO]
      intro u hu hlt'
      obtain ⟨hne, hnot⟩ := h.other u hu (htot ▸ hlt')
      refine ⟨?_, fun hc => hnot hc.1⟩
      rwa [hcount u (by rintro rfl; exact hnot hown)]
    · intro g hg
      rw [hT, hO, hM]
      intro hmapped
      obtain ⟨hnot, hnot'⟩ := h.page g (htot ▸ hg) hmapped
      exact ⟨fun hc => hnot hc.1, hnot'⟩
    · intro g hg
      rw [hM]
      rcases Set.eq_empty_or_nonempty (mappings I r s g) with hnone | hmapped
      · simp [hnone]
      · rw [hcount g (by rintro rfl; exact (h.page g hlt hmapped).1 hown)]
        exact h.refs g (htot ▸ hg)
  refine ⟨h.clear hmem' hb ?_, hown, hT, fun v' hv' => ?_⟩
  · intro x hx
    rw [hT, hX hx]
    exact fun hc => hc.2 rfl
  · have hwalk : walk s' r v' = walk (s.setEntry t (tableIndex (3 - d) v) 0) r v' :=
      walk_congr fun k _ u _ => Vm.entry_congr (congrFun hmem' u)
    by_cases hc : v' ∈ ownPages I ∧ prefixAt (d + 1) v' = prefixAt (d + 1) v
    · have hnone := hstop v' hc.2 4 (by omega)
      rw [walk_eq_none_iff.mpr hnone, walk_eq_none_iff, hpage v' hc.1, hnone]
    · rw [hwalk]
      exact h.walk_setEntry hv (by omega) ht hv' fun ho hq => hc ⟨ho, hq⟩

/-- Taking a page out of its page table, and giving up the reference to its frame. -/
theorem cutPage (h : Own I r ∅ s) (hv : v ∈ ownPages I) (ht : frameAt s r v 3 = some t)
    (hf : frameAt s r v 4 = some f) (hm : s.free f = some s₁) :
    Own I r {t} (s₁.setEntry t (tableIndex 0 v) 0) ∧
      ownTables I r (s₁.setEntry t (tableIndex 0 v) 0) = ownTables I r s ∧
      ∀ v' < 2 ^ 36, v' ≠ v → walk (s₁.setEntry t (tableIndex 0 v) 0) r v' = walk s r v' := by
  obtain ⟨hmem, -, htot⟩ := Vm.free_frame hm
  have hmem' : (s₁.setEntry t (tableIndex 0 v) 0).mem = (s.setEntry t (tableIndex 0 v) 0).mem := by
    simp only [Vm.setEntry, hmem]
  set s' := s₁.setEntry t (tableIndex 0 v) 0
  have hcount : ∀ g ≠ f, s'.pageMap.pagemap g = s.pageMap.pagemap g := by
    intro g hg
    rw [Vm.pageMap_setEntry, pagemap_of_free hm hg]
  have hframe : ∀ v' j, frameAt s' r v' j = frameAt (s.setEntry t (tableIndex 0 v) 0) r v' j :=
    fun v' j => frameAt_congr_mem fun k _ u _ => congrFun hmem' u
  have hupper : ∀ v' < 2 ^ 36, ∀ j ≤ 3, frameAt s' r v' j = frameAt s r v' j :=
    fun v' hv' j hj => (hframe v' j).trans
      (h.frameAt_setEntry (d := 3) hv le_rfl ht hv' (by omega) fun _ hlt => by omega)
  have hpage : ∀ v' ∈ ownPages I,
      frameAt s' r v' 4 = if v' = v then none else frameAt s r v' 4 := by
    intro v' hv'
    rw [hframe, h.distinct.frameAt_clear (d := 3) hv hv' (by decide) le_rfl ht]
    simp
  have hT : ownTables I r s' = ownTables I r s := ownTables_congr fun v' hv' => hupper v' hv'.1
  have hO : otherTables I r s' = otherTables I r s :=
    otherTables_congr fun v' hv' _ => hupper v' hv'
  have hM : ∀ g, mappings I r s' g = mappings I r s g \ {v} := by
    intro g
    ext v'
    constructor
    · rintro ⟨hv', hg⟩
      rw [hpage v' hv', Option.ite_none_left_eq_some] at hg
      exact ⟨⟨hv', hg.2⟩, hg.1⟩
    · rintro ⟨⟨hv', hg⟩, hne⟩
      have hne' : v' ≠ v := hne
      exact ⟨hv', by rw [hpage v' hv', if_neg hne', hg]⟩
  have hb : Backed I r s' := by
    refine ⟨?_, ?_, ?_, ?_⟩
    · rw [hT]
      intro u hu
      have hne : u ≠ f := by
        rintro rfl
        exact (h.page u (h.table u hu).1 ⟨v, hv, hf⟩).1 hu
      rw [hcount u hne, Vm.pageMap_setEntry, htot]
      exact h.table u hu
    · rw [hT, hO]
      intro u hu hlt
      have hne : u ≠ f := by
        rintro rfl
        exact (h.page u (htot ▸ hlt) ⟨v, hv, hf⟩).2 hu
      rw [hcount u hne]
      exact h.other u hu (htot ▸ hlt)
    · intro g hg
      rw [hT, hO, hM]
      exact fun hmapped => h.page g (htot ▸ hg) (hmapped.mono Set.sdiff_subset)
    · intro g hg
      have hrefs := h.refs g (htot ▸ hg)
      rw [hM]
      rcases eq_or_ne g f with rfl | hne
      · have hless := counter_of_free hm (htot ▸ hg)
        have hmem₀ : v ∈ mappings I r s g := ⟨hv, hf⟩
        rw [Set.ncard_sdiff_singleton_of_mem hmem₀]
        change _ ≤ (s₁.pageMap.pagemap g).toNat
        omega
      · rw [hcount g hne]
        exact (Set.ncard_le_ncard Set.sdiff_subset (mappings_finite I r s g)).trans hrefs
  refine ⟨h.clear hmem' hb fun _ hx => absurd hx id, hT, fun v' hv' hne => ?_⟩
  have hwalk : walk s' r v' = walk (s.setEntry t (tableIndex 0 v) 0) r v' :=
    walk_congr fun k _ u _ => Vm.entry_congr (congrFun hmem' u)
  rw [hwalk]
  refine h.walk_setEntry (d := 3) hv le_rfl ht hv' fun _ hq => hne ?_
  simpa using hq

end Own

end AddrSpace

end Koerix
