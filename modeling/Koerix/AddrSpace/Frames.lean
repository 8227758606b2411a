import Koerix.AddrSpace.AddPage
import Koerix.AddrSpace.Cow

/-! # The frames that an operation takes

How many frames `map` and `triggerCow` allocate can be read off the path of the page. `map`
takes one for every table that is missing. `triggerCow` copies the first frame with several
references, and then every frame below it, because the copy of a table refers to the same
frames as the table.
-/

namespace Koerix

open GenericPagingTable InDegree

namespace Vm

variable {s s' : Vm} {n : ℕ}

theorem freeFrames_alloc (h : s.alloc = some (n, s')) :
    s'.pageMap.freeFrames + 1 = s.pageMap.freeFrames := by
  simp only [alloc, Option.map_eq_some_iff, Prod.exists, Prod.mk.injEq] at h
  obtain ⟨f, m, ha, rfl, rfl⟩ := h
  exact PageMap.freeFrames_alloc ha

theorem exists_alloc (h : 0 < s.pageMap.freeFrames) : ∃ n s', s.alloc = some (n, s') := by
  obtain ⟨n, m, hm⟩ := PageMap.exists_alloc h
  exact ⟨n, { s with pageMap := m }, by rw [alloc, hm]; rfl⟩

end Vm

namespace AddrSpace

/-- The number of tables that `map` has to add below a table. -/
def missingTables (s : Vm) (virt : ℕ) : ℕ → ℕ → ℕ
  | 0, _ => 0
  | level + 1, t =>
    if present (s.entry t (tableIndex (level + 1) virt)) then
      missingTables s virt level (ppn (s.entry t (tableIndex (level + 1) virt)))
    else level + 1

variable {s s' : Vm} {live : List ℕ} {pos : Positions} {base : ℕ → ℕ}
  {f t d n q i r v phys level : ℕ} {flags : MapFlags}

section Map

theorem missingTables_of_absent (hp : present (s.entry t (tableIndex level v)) = false) :
    missingTables s v level t = level := by
  cases level with
  | zero => rfl
  | succ level => rw [missingTables, hp, if_neg (by decide)]

theorem missingTables_le (s : Vm) (v level t : ℕ) : missingTables s v level t ≤ level := by
  induction level generalizing t with
  | zero => exact le_rfl
  | succ level ih =>
    rw [missingTables]
    split_ifs
    · exact (ih _).trans (Nat.le_succ level)
    · exact le_rfl

theorem missingTables_eq {k u : ℕ} (hd : d ≤ k) (hk : k ≤ 3) (hu : frameAt s r v k = some u)
    (ht : frameAt s r v d = some t) :
    missingTables s v (3 - d) t = missingTables s v (3 - k) u := by
  induction k, hd using Nat.le_induction generalizing u with
  | base =>
    obtain rfl : t = u := Option.some.inj (ht.symm.trans hu)
    rfl
  | succ k hdk ih =>
    obtain ⟨w, hw, hp, rfl⟩ := frameAt_succ_eq_some_iff.mp hu
    have hlevel : 3 - k = 3 - (k + 1) + 1 := by omega
    rw [hlevel] at hp
    rw [ih (by omega) hw, hlevel, missingTables, if_pos hp]

theorem mapFrom_eq {k u : ℕ} (hd : d ≤ k) (hk : k ≤ 3) (hu : frameAt s r v k = some u)
    (ht : frameAt s r v d = some t) :
    mapFrom v phys flags (3 - d) t s = mapFrom v phys flags (3 - k) u s := by
  induction k, hd using Nat.le_induction generalizing u with
  | base =>
    obtain rfl : t = u := Option.some.inj (ht.symm.trans hu)
    rfl
  | succ k hdk ih =>
    obtain ⟨w, hw, hp, rfl⟩ := frameAt_succ_eq_some_iff.mp hu
    have hlevel : 3 - k = 3 - (k + 1) + 1 := by omega
    rw [hlevel] at hp
    rw [ih (by omega) hw, hlevel, mapFrom, if_pos hp]

theorem missingTables_congr (hl : d + level = 3) (ht : frameAt s r v d = some t)
    (hent : ∀ k ≤ 3, ∀ u, frameAt s r v k = some u →
      s'.entry u (tableIndex (3 - k) v) = s.entry u (tableIndex (3 - k) v)) :
    missingTables s' v level t = missingTables s v level t := by
  induction level generalizing d t with
  | zero => rfl
  | succ level ih =>
    have hlevel : 3 - d = level + 1 := by omega
    have he := hent d (by omega) t ht
    rw [hlevel] at he
    rw [missingTables, missingTables, he]
    split_ifs with hp
    · exact ih (by omega)
        (frameAt_succ_eq_some_iff.mpr ⟨t, ht, by rwa [hlevel], by rw [hlevel]⟩)
    · rfl

theorem exists_absent (h : frameAt s r v d = none) :
    ∃ k < d, ∃ u, frameAt s r v k = some u ∧
      present (s.entry u (tableIndex (3 - k) v)) = false := by
  induction d with
  | zero => cases h
  | succ d ih =>
    cases ht : frameAt s r v d with
    | none =>
      obtain ⟨k, hk, hrest⟩ := ih ht
      exact ⟨k, by omega, hrest⟩
    | some t =>
      refine ⟨d, Nat.lt_succ_self d, t, ht, ?_⟩
      by_contra hp
      have hf := frameAt_succ_eq_some_iff.mpr ⟨t, ht, (Bool.not_eq_false _).mp hp, rfl⟩
      rw [h] at hf
      cases hf

theorem frameAt_eq_none {k u : ℕ} (hu : frameAt s r v k = some u)
    (hp : present (s.entry u (tableIndex (3 - k) v)) = false) (hd : k < d) :
    frameAt s r v d = none := by
  induction d, hd using Nat.le_induction with
  | base => simp [frameAt, hu, hp]
  | succ d _ ih => rw [frameAt, ih, Option.bind_none]

theorem exists_mapFrom_iff_of_absent (ht : s.pageMap.pagemap t ≠ 0)
    (hp : present (s.entry t (tableIndex level v)) = false) :
    (∃ s', mapFrom v phys flags level t s = some s') ↔ level ≤ s.pageMap.freeFrames := by
  refine ⟨?_, exists_mapFrom_of_absent ht hp⟩
  rintro ⟨s', hm⟩
  induction level generalizing t s with
  | zero => exact Nat.zero_le _
  | succ level ih =>
    obtain ⟨n, s₁, ha, -, -, hm, hn, hempty⟩ := mapFrom_succ_of_absent ht hp hm
    have hle := ih hn (hempty _) hm
    rw [Vm.pageMap_setEntry, Vm.pageMap_setFrame] at hle
    have hcount := Vm.freeFrames_alloc ha
    omega

/-- `map` returns on the pages that are not mapped, if there is a frame for each table that it
has to add. -/
theorem Settled.exists_map_iff (h : Settled base s live pos) (hr : r ∈ live) (hv : v < userPages) :
    (∃ s', AddrSpace.map r v phys flags s = some s') ↔
      view s r v = none ∧ missingTables s v 3 r ≤ s.pageMap.freeFrames := by
  rcases hf : frameAt s r v 4 with _ | f
  · obtain ⟨k, hk, u, hu, hp⟩ := exists_absent hf
    have hused := h.counter_ne_zero (h.frameAt_slot hr hv hk hu).pos_eq
    have hview : view s r v = none := by
      rw [view, walk_eq_none (show k + (3 - k) = 3 by omega) hu (walkFrom_of_absent hp)]
      rfl
    have hmap : AddrSpace.map r v phys flags s = mapFrom v phys flags (3 - k) u s :=
      mapFrom_eq (d := 0) (Nat.zero_le _) (by omega) hu rfl
    have hmissing : missingTables s v 3 r = 3 - k := by
      rw [← missingTables_of_absent hp]
      exact missingTables_eq (d := 0) (Nat.zero_le _) (by omega) hu rfl
    rw [hmap, exists_mapFrom_iff_of_absent hused hp, hmissing]
    simp [hview]
  · constructor
    · rintro ⟨s', hm⟩
      obtain ⟨k, u, -, hk, hu, hp, -⟩ := mapFrom_descend (d := 0) rfl rfl hm
      rw [frameAt_eq_none hu hp (by omega)] at hf
      cases hf
    · rintro ⟨hview, -⟩
      rw [frameAt_four_of_view hview] at hf
      cases hf

theorem Settled.exists_addPage_iff (h : Settled base s live pos) (hr : r ∈ live)
    (hv : v < userPages) (content : ℕ → BitVec 64) :
    (∃ phys s₁ s', s.alloc = some (phys, s₁) ∧
      AddrSpace.map r v phys flags (s₁.setFrame phys content) = some s') ↔
      view s r v = none ∧ missingTables s v 3 r < s.pageMap.freeFrames := by
  have hmapped : ∀ {phys s₁}, s.alloc = some (phys, s₁) →
      ((∃ s', AddrSpace.map r v phys flags (s₁.setFrame phys content) = some s') ↔
        view s r v = none ∧ missingTables s v 3 r < s.pageMap.freeFrames) := by
    intro phys s₁ ha
    obtain ⟨h₂, -⟩ := h.allocFilled ha content
    have hcount := Vm.freeFrames_alloc ha
    have hmissing : missingTables (s₁.setFrame phys content) v 3 r = missingTables s v 3 r :=
      missingTables_congr (d := 0) rfl rfl fun k hk u hu =>
        Vm.entry_congr (h.mem_allocFilled hr hv ha content (by omega) hu)
    rw [h₂.exists_map_iff hr hv, h.view_alloc_setFrame hr hv ha, hmissing, Vm.pageMap_setFrame,
      ← hcount, Nat.lt_succ_iff]
  constructor
  · rintro ⟨phys, s₁, s', ha, hm⟩
    exact (hmapped ha).mp ⟨s', hm⟩
  · rintro ⟨hview, hlt⟩
    obtain ⟨phys, s₁, ha⟩ := Vm.exists_alloc (s := s) (by omega)
    obtain ⟨s', hm⟩ := (hmapped ha).mpr ⟨hview, hlt⟩
    exact ⟨phys, s₁, s', ha, hm⟩

end Map

section Copy

/-- A copy of the table with this entry refers to the frame once more. -/
def recounted (m : PageMap) (e : GenericPagingTable) : Bool :=
  !shared e && decide (ppn e < m.totalPages)

/-- The number of frames on a path that have to be copied, if the table with its first entry is
copied or not. -/
def copies (m : PageMap) : Bool → List GenericPagingTable → ℕ
  | _, [] => 0
  | copied, e :: es =>
    if copied && recounted m e || decide (1 < m.getRefs (ppn e)) then copies m true es + 1
    else copies m false es

/-- The number of frames that `triggerCow` takes for a page. -/
def cowFrames (s : Vm) (pml4 virt : ℕ) : ℕ :=
  copies s.pageMap false ((walk s pml4 virt).getD [])

theorem copies_congr {m m' : PageMap} {b : Bool} {es : List GenericPagingTable}
    (ht : m'.totalPages = m.totalPages) (hm : ∀ e ∈ es, m'.getRefs (ppn e) = m.getRefs (ppn e)) :
    copies m' b es = copies m b es := by
  induction es generalizing b with
  | nil => rfl
  | cons e es ih =>
    have hrec : recounted m' e = recounted m e := by rw [recounted, recounted, ht]
    rw [copies, copies, hrec, hm e List.mem_cons_self]
    simp only [ih fun e he => hm e (List.mem_cons_of_mem _ he)]

theorem walkFrom_congr {es : List GenericPagingTable} (hl : d + level = 3)
    (ht : frameAt s r v d = some t)
    (hent : ∀ k, d ≤ k → k ≤ 3 → ∀ u, frameAt s r v k = some u →
      s'.entry u (tableIndex (3 - k) v) = s.entry u (tableIndex (3 - k) v))
    (hes : walkFrom s v level t = some es) : walkFrom s' v level t = some es := by
  induction level generalizing d t es with
  | zero =>
    obtain rfl : d = 3 := by omega
    rw [walkFrom_zero] at hes ⊢
    rwa [hent 3 le_rfl le_rfl t ht]
  | succ level ih =>
    have hlevel : 3 - d = level + 1 := by omega
    have he := hent d le_rfl (by omega) t ht
    rw [hlevel] at he
    rw [walkFrom_succ] at hes ⊢
    rw [he]
    split_ifs at hes with hp
    obtain ⟨es', hes', rfl⟩ := Option.map_eq_some_iff.mp hes
    have ht' := frameAt_succ_eq_some_iff.mpr ⟨t, ht, by rwa [hlevel], by rw [hlevel]⟩
    rw [if_pos hp, ih (by omega) ht' (fun k hk => hent k (by omega)) hes']
    rfl

theorem entryAt_of_mem_walkFrom {es : List GenericPagingTable} {e : GenericPagingTable}
    (hl : d + level = 3) (ht : frameAt s r v d = some t) (hes : walkFrom s v level t = some es)
    (he : e ∈ es) : ∃ k, d ≤ k ∧ k ≤ 3 ∧ entryAt s r v k = some e := by
  induction level generalizing d t es with
  | zero =>
    obtain rfl : d = 3 := by omega
    rw [walkFrom_zero] at hes
    split_ifs at hes with hp
    cases hes
    rw [List.mem_singleton] at he
    exact ⟨3, le_rfl, le_rfl, entryAt_eq_some_iff.mpr ⟨t, ht, he.symm, he ▸ hp⟩⟩
  | succ level ih =>
    have hlevel : 3 - d = level + 1 := by omega
    rw [walkFrom_succ] at hes
    split_ifs at hes with hp
    obtain ⟨es', hes', rfl⟩ := Option.map_eq_some_iff.mp hes
    rcases List.mem_cons.mp he with rfl | he
    · exact ⟨d, le_rfl, by omega, entryAt_eq_some_iff.mpr ⟨t, ht, by rw [hlevel], hp⟩⟩
    · have ht' := frameAt_succ_eq_some_iff.mpr ⟨t, ht, by rwa [hlevel], by rw [hlevel]⟩
      obtain ⟨k, hk, hrest⟩ := ih (by omega) ht' hes' he
      exact ⟨k, by omega, hrest⟩

theorem mem_walkFrom_of_entryAt {es : List GenericPagingTable} {e : GenericPagingTable} {k : ℕ}
    (hl : d + level = 3) (ht : frameAt s r v d = some t) (hes : walkFrom s v level t = some es)
    (hd : d ≤ k) (hk : k ≤ 3) (he : entryAt s r v k = some e) : e ∈ es := by
  induction level generalizing d t es with
  | zero =>
    obtain rfl : d = 3 := by omega
    obtain rfl : k = 3 := by omega
    obtain ⟨u, hu, rfl, hp⟩ := entryAt_eq_some_iff.mp he
    obtain rfl : t = u := Option.some.inj (ht.symm.trans hu)
    rw [walkFrom_zero, if_pos hp] at hes
    cases hes
    exact List.mem_singleton_self _
  | succ level ih =>
    have hlevel : 3 - d = level + 1 := by omega
    rw [walkFrom_succ] at hes
    split_ifs at hes with hp
    obtain ⟨es', hes', rfl⟩ := Option.map_eq_some_iff.mp hes
    rcases eq_or_lt_of_le hd with rfl | hlt
    · obtain ⟨u, hu, rfl, -⟩ := entryAt_eq_some_iff.mp he
      obtain rfl : t = u := Option.some.inj (ht.symm.trans hu)
      rw [hlevel]
      exact List.mem_cons_self
    · have ht' := frameAt_succ_eq_some_iff.mpr ⟨t, ht, by rwa [hlevel], by rw [hlevel]⟩
      exact List.mem_cons_of_mem _ (ih (by omega) ht' hes' hlt)

namespace Settled

theorem used_of_slot (h : Settled base s live pos) (hs : Slot pos t i d q)
    (hp : present (s.entry t i) = true) (hlt : ppn (s.entry t i) < s.pageMap.totalPages) :
    s.pageMap.pagemap (ppn (s.entry t i)) ≠ 0 ∧
      ∀ {d' q'}, pos (ppn (s.entry t i)) = some (d', q') → d' = d + 1 := by
  have hok := h.entries hs hp
  rcases hsh : shared (s.entry t i) with _ | _
  · have hpos := hok.child hsh hlt
    refine ⟨h.counter_ne_zero hpos, fun {d' q'} hq => ?_⟩
    have heq := hpos.symm.trans hq
    simp only [Option.some.injEq, Prod.mk.injEq] at heq
    exact heq.1.symm
  · obtain ⟨hnone, hpos⟩ := hok.device hsh hlt
    refine ⟨fun hz => ?_, fun hq => absurd (hnone.symm.trans hq) (by simp)⟩
    have hc := h.counter_eq hlt
    rw [hz, UInt8.toNat_zero] at hc
    omega

variable {s₁ s₂ s₃ : Vm}

/-- What `unshare` does to the entries. -/
theorem unshare_moved (h : Settled base s live pos) (hs : Slot pos t i d q)
    (hp : present (s.entry t i) = true)
    (hrefs : 1 < s.pageMap.getRefs (ppn (s.entry t i)))
    (hu : AddrSpace.unshare (3 - d) t i s = some s') :
    ∃ n s₁, s.alloc = some (n, s₁) ∧ Moved s s' t i (ppn (s.entry t i)) n d := by
  obtain ⟨n, s₁, s₂, s₃, ha, hs₂, hfree, rfl⟩ := unshare_eq_some hu
  have hlt : ppn (s.entry t i) < s.pageMap.totalPages := by
    by_contra hge
    simp [Counters.getRefs, not_lt.mp hge] at hrefs
  rw [h.getRefs_eq hlt] at hrefs
  refine ⟨n, s₁, ha, ?_⟩
  rcases Nat.lt_or_ge d 3 with hd | hd
  · rw [if_neg (by omega)] at hs₂
    exact (h.unshareTable hs hd hp hrefs ha hs₂ hfree).2
  · obtain rfl : d = 3 := by have := hs.depth; omega
    rw [if_pos rfl] at hs₂
    rcases hsh : shared (s.entry t i) with _ | _
    · exact (h.unsharePage hs hp hsh hlt hrefs ha hs₂ hfree).2
    · exact (h.unshareDevice hs hp hsh hlt hrefs ha hs₂ hfree).2

/-- The memory before `unshare` drops the reference to the old frame. -/
theorem unshare_copied (h : Settled base s live pos) (hs : Slot pos t i d q)
    (hp : present (s.entry t i) = true) (ha : s.alloc = some (n, s₁))
    (hs₂ : s₂ = if 3 - d = 0 then s₁.setFrame n (s₁.mem (ppn (s.entry t i)))
      else (List.range 512).foldl (copyEntry (ppn (s.entry t i)) n) s₁) :
    s₂.entry t i = s.entry t i ∧ s₂.pageMap.totalPages = s.pageMap.totalPages ∧
      ∀ f < s.pageMap.totalPages, f ≠ n →
        (d < 3 → ∀ j < 512, counted (s.entry (ppn (s.entry t i)) j) ≠ some f) →
        s₂.pageMap.pagemap f = s.pageMap.pagemap f := by
  obtain ⟨hpos, -, -, -⟩ := h.alloc ha
  obtain ⟨hmem, -, -, -, htot, hpm⟩ := Vm.alloc_eq_some ha
  have hnt : n ≠ t := by
    rintro rfl
    simpa [hpos] using hs.pos_eq
  have hent : ∀ u j, s₁.entry u j = s.entry u j := fun u _ => Vm.entry_congr (congrFun hmem u)
  rcases Nat.lt_or_ge d 3 with hd | hd
  · rw [if_neg (by omega)] at hs₂
    have hok := h.entries hs hp
    obtain ⟨hlt, hsh, -⟩ := hok.upper hd
    have hc := hok.child hsh hlt
    have hcn : ppn (s.entry t i) ≠ n := by
      intro he
      simp [he, hpos] at hc
    have htc : t ≠ ppn (s.entry t i) := by
      intro he
      rw [← he, hs.pos_eq] at hc
      simp at hc
    have hcopy := copiedUpTo_foldl_copyEntry s₁ hcn 512
    rw [← hs₂] at hcopy
    refine ⟨by rw [Vm.entry_congr (hcopy.other t htc hnt.symm), hent], hcopy.total.trans htot,
      fun f hf hfn hnone => ?_⟩
    rw [hcopy.counters f (htot ▸ hf), hpm, Function.update_of_ne hfn,
      Finset.sum_eq_zero fun j hj => ?_]
    · simp
    · rw [hent]
      exact hit_of_ne (hnone hd j (Finset.mem_range.mp hj))
  · rw [if_pos (by omega)] at hs₂
    rw [hs₂]
    refine ⟨by rw [Vm.entry_setFrame_of_ne hnt.symm, hent], htot, fun f _ hfn _ => ?_⟩
    rw [Vm.pageMap_setFrame, hpm, Function.update_of_ne hfn]

theorem counted_ne {c j : ℕ} (h : Settled base s live pos) (hc : pos c = some (d + 1, q))
    (hd : d < 3) (hj : j < 512) (hf : f < s.pageMap.totalPages)
    (hpos : ∀ q', pos f ≠ some (d + 2, q')) : counted (s.entry c j) ≠ some f := by
  intro he
  rw [counted] at he
  split_ifs at he with hcond
  cases he
  simp only [Bool.and_eq_true, Bool.not_eq_true'] at hcond
  have hs : Slot pos c j (d + 1) q := ⟨hc, by omega, by rwa [entryCount, if_neg (by omega)]⟩
  exact hpos _ ((h.entries hs hcond.1).child hcond.2 hf)

/-- The references that `unshare` leaves alone. -/
theorem pagemap_unshare (h : Settled base s live pos) (hs : Slot pos t i d q)
    (hp : present (s.entry t i) = true) (ha : s.alloc = some (n, s₁))
    (hu : AddrSpace.unshare (3 - d) t i s = some s') (hf : f < s.pageMap.totalPages)
    (hfn : f ≠ n) (hfc : f ≠ ppn (s.entry t i)) (hpos : ∀ q', pos f ≠ some (d + 2, q')) :
    s'.pageMap.pagemap f = s.pageMap.pagemap f := by
  obtain ⟨n', s₁', s₂, s₃, ha', hs₂, hfree, rfl⟩ := unshare_eq_some hu
  cases ha.symm.trans ha'
  obtain ⟨hent, htot, hcounters⟩ := h.unshare_copied hs hp ha hs₂
  have hnone : d < 3 → ∀ j < 512, counted (s.entry (ppn (s.entry t i)) j) ≠ some f := by
    intro hd j hj
    have hok := h.entries hs hp
    obtain ⟨hlt, hsh, -⟩ := hok.upper hd
    exact h.counted_ne (hok.child hsh hlt) hd hj hf hpos
  rw [Vm.pageMap_setEntry, ← hcounters f hf hfn hnone]
  rw [hent] at hfree
  rcases Nat.lt_or_ge (ppn (s.entry t i)) s₂.pageMap.totalPages with hlt | hge
  · obtain ⟨-, -, -, -, hpm⟩ := Vm.free_eq_some hfree hlt
    rw [hpm, Function.update_of_ne hfc]
  · simp only [Vm.free, PageMap.free_of_le hge, Option.map_some, Option.some.injEq] at hfree
    rw [← hfree]

/-- `unshare` returns when there is a frame for the copy. -/
theorem exists_unshare_iff (h : Settled base s live pos) (hs : Slot pos t i d q)
    (hp : present (s.entry t i) = true)
    (hrefs : 1 < s.pageMap.getRefs (ppn (s.entry t i))) :
    (∃ s', AddrSpace.unshare (3 - d) t i s = some s') ↔ 0 < s.pageMap.freeFrames := by
  constructor
  · rintro ⟨s', hu⟩
    obtain ⟨n, s₁, -, -, ha, -⟩ := unshare_eq_some hu
    have hcount := Vm.freeFrames_alloc ha
    omega
  · intro hfree
    obtain ⟨n, s₁, ha⟩ := Vm.exists_alloc hfree
    obtain ⟨s₂, hs₂⟩ : ∃ s₂, s₂ = if 3 - d = 0 then s₁.setFrame n (s₁.mem (ppn (s.entry t i)))
      else (List.range 512).foldl (copyEntry (ppn (s.entry t i)) n) s₁ := ⟨_, rfl⟩
    obtain ⟨hent, htot, hcounters⟩ := h.unshare_copied hs hp ha hs₂
    have hlt : ppn (s.entry t i) < s.pageMap.totalPages := by
      by_contra hge
      simp [Counters.getRefs, not_lt.mp hge] at hrefs
    obtain ⟨hused, hdepth⟩ := h.used_of_slot hs hp hlt
    have hcn : ppn (s.entry t i) ≠ n := by
      intro he
      obtain ⟨-, -, -, hz, -, -⟩ := Vm.alloc_eq_some ha
      exact hused (he ▸ hz)
    have hcounter : s₂.pageMap.pagemap (ppn (s.entry t i)) =
        s.pageMap.pagemap (ppn (s.entry t i)) := by
      refine hcounters _ hlt hcn fun hd j hj => ?_
      have hok := h.entries hs hp
      exact h.counted_ne (hok.child (hok.upper hd).2.1 hlt) hd hj hlt
        fun q' hq => absurd (hdepth hq) (by omega)
    obtain ⟨m, hm⟩ : ∃ m, s₂.pageMap.free (ppn (s₂.entry t i)) = some m := by
      rw [← Option.ne_none_iff_exists', ne_eq, PageMap.free_eq_none_iff, hent, hcounter]
      exact fun hz => hused hz.2
    refine ⟨Vm.setEntry { s₂ with pageMap := m } t i (relink (s₂.entry t i) n), ?_⟩
    rw [AddrSpace.unshare, ha]
    simp only [Option.bind_eq_bind, Option.bind_some, ← hs₂, Vm.free, hm, Option.map_some]
    rfl

/-- `unshare` takes one frame. -/
theorem freeFrames_unshare (h : Settled base s live pos) (hs : Slot pos t i d q)
    (hp : present (s.entry t i) = true) (hw : writable (s.entry t i) = true)
    (hrefs : 1 < s.pageMap.getRefs (ppn (s.entry t i)))
    (hu : AddrSpace.unshare (3 - d) t i s = some s') :
    s'.pageMap.freeFrames + 1 = s.pageMap.freeFrames := by
  obtain ⟨base', pos', h', hclaim, hbase, -⟩ := h.unshare hs hp hw hrefs hu
  obtain ⟨n, s₁, ha, hmoved⟩ := h.unshare_moved hs hp hrefs hu
  obtain ⟨-, -, hn, hz, -, -⟩ := Vm.alloc_eq_some ha
  have hlt : ppn (s.entry t i) < s.pageMap.totalPages := by
    by_contra hge
    simp [Counters.getRefs, not_lt.mp hge] at hrefs
  have hppn : ppn (s'.entry t i) = n := by
    rw [hmoved.entry, ppn_relink, Nat.mod_eq_of_lt (lt_of_lt_of_le hn s.pageMap.fits)]
  have hslot : Slot pos' t i d q := ⟨hclaim.mono t _ hs.pos_eq, hs.depth, hs.index⟩
  have hnew : s'.pageMap.pagemap n ≠ 0 := by
    have hused := (h'.used_of_slot hslot hclaim.present_eq (by rwa [hppn, hclaim.total])).1
    rwa [hppn] at hused
  have hused := (h.used_of_slot hs hp hlt).1
  have herase : (Finset.range s'.pageMap.totalPages).filter (fun f => s'.pageMap.pagemap f = 0) =
      ((Finset.range s.pageMap.totalPages).filter fun f => s.pageMap.pagemap f = 0).erase n := by
    ext f
    simp only [Finset.mem_filter, Finset.mem_range, Finset.mem_erase, hclaim.total]
    constructor
    · rintro ⟨hf, hfree⟩
      refine ⟨fun he => hnew (he ▸ hfree), hf, ?_⟩
      obtain ⟨hpos, hb⟩ := h'.pos_none_of_free (hclaim.total ▸ hf) hfree
      have hpos₀ : pos f = none := by
        by_contra hne
        obtain ⟨p, hp⟩ := Option.ne_none_iff_exists'.mp hne
        simpa [hpos] using hclaim.mono f p hp
      have hb₀ : base f = 0 := by
        by_contra hne
        exact hbase f hne hb
      rw [h.refs hf, h.count_of_pos_none hf hpos₀, hb₀]
      rfl
    · rintro ⟨hfn, hf, hfree⟩
      have hfc : f ≠ ppn (s.entry t i) := fun he => hused (he ▸ hfree)
      obtain ⟨hpos, -⟩ := h.pos_none_of_free hf hfree
      rw [h.pagemap_unshare hs hp ha hu hf hfn hfc (by simp [hpos])]
      exact ⟨hf, hfree⟩
  rw [Counters.freeFrames, Counters.freeFrames, herase]
  exact Finset.card_erase_add_one (by simp [hn, hz])

theorem getRefs_unshare (h : Settled base s live pos) (hs : Slot pos t i d q)
    (hp : present (s.entry t i) = true)
    (hrefs : 1 < s.pageMap.getRefs (ppn (s.entry t i)))
    (hu : AddrSpace.unshare (3 - d) t i s = some s')
    (hused : f < s.pageMap.totalPages → s.pageMap.pagemap f ≠ 0)
    (hc : f ≠ ppn (s.entry t i)) (hpos : ∀ q', pos f ≠ some (d + 2, q')) :
    s'.pageMap.getRefs f = s.pageMap.getRefs f := by
  obtain ⟨n, s₁, ha, -⟩ := h.unshare_moved hs hp hrefs hu
  obtain ⟨-, -, -, hz, -, -⟩ := Vm.alloc_eq_some ha
  rw [Counters.getRefs, Counters.getRefs, (unshare_frame hu).1]
  split_ifs with hge
  · rfl
  · have hfn : f ≠ n := fun he => hused (not_le.mp hge) (he ▸ hz)
    rw [h.pagemap_unshare hs hp ha hu (not_le.mp hge) hfn hc hpos]

/-- After a table has been copied, its frames have several references. -/
theorem one_lt_getRefs_unshare {j : ℕ} (h : Settled base s live pos) (hs : Slot pos t i d q)
    (hd : d < 3) (hp : present (s.entry t i) = true) (hw : writable (s.entry t i) = true)
    (hrefs : 1 < s.pageMap.getRefs (ppn (s.entry t i)))
    (hu : AddrSpace.unshare (3 - d) t i s = some s') (hj : j < 512)
    (hpj : present (s.entry (ppn (s.entry t i)) j) = true) :
    1 < s'.pageMap.getRefs (ppn (s.entry (ppn (s.entry t i)) j)) ↔
      recounted s.pageMap (s.entry (ppn (s.entry t i)) j) = true ∨
        1 < s.pageMap.getRefs (ppn (s.entry (ppn (s.entry t i)) j)) := by
  obtain ⟨base', pos', h', hclaim, -, -⟩ := h.unshare hs hp hw hrefs hu
  obtain ⟨n, s₁, ha, hmoved⟩ := h.unshare_moved hs hp hrefs hu
  obtain ⟨-, -, hn, hz, -, -⟩ := Vm.alloc_eq_some ha
  have hok := h.entries hs hp
  obtain ⟨hlt, hsh, -⟩ := hok.upper hd
  have hcpos := hok.child hsh hlt
  set c := ppn (s.entry t i) with hcdef
  have hslot : Slot pos c j (d + 1) (512 * q + i) :=
    ⟨hcpos, by omega, by rwa [entryCount, if_neg (by omega)]⟩
  have hcn : c ≠ n := fun he => (h.used_of_slot hs hp hlt).1 (hcdef ▸ he ▸ hz)
  rcases hrec : recounted s.pageMap (s.entry c j) with _ | _
  · -- the frame of a shared or foreign page
    have hnone : ∀ p, pos (ppn (s.entry c j)) ≠ some p := by
      intro p hpos
      have hltj : ppn (s.entry c j) < s.pageMap.totalPages := (h.bounded hpos).1
      rcases hshj : shared (s.entry c j) with _ | _
      · simp [recounted, hshj, hltj] at hrec
      · simp [((h.entries hslot hpj).device hshj hltj).1] at hpos
    rw [h.getRefs_unshare hs hp hrefs hu (fun hlt => (h.used_of_slot hslot hpj hlt).1)
      (fun he => hnone (d + 1, 512 * q + i) (by rw [he]; exact hcpos)) fun q' => hnone _]
    simp
  · simp only [recounted, Bool.and_eq_true, Bool.not_eq_true', decide_eq_true_eq] at hrec
    obtain ⟨hshj, hltj⟩ := hrec
    simp only [true_or, iff_true]
    -- both the old table and the new one refer to the frame
    have hppn : ppn (s'.entry t i) = n := by
      rw [hmoved.entry, ppn_relink, Nat.mod_eq_of_lt (lt_of_lt_of_le hn s.pageMap.fits)]
    have hslot' : Slot pos' t i d q := ⟨hclaim.mono t _ hs.pos_eq, hs.depth, hs.index⟩
    have hshared' : shared (s'.entry t i) = false := by rw [hmoved.entry, shared_relink, hsh]
    have hnpos := (h'.entries hslot' hclaim.present_eq).child hshared'
      (by rwa [hppn, hclaim.total])
    rw [hppn] at hnpos
    have hold : Slot pos' c j (d + 1) (512 * q + i) :=
      ⟨hclaim.mono c _ hcpos, hslot.depth, hslot.index⟩
    have hnew : Slot pos' n j (d + 1) (512 * q + i) := ⟨hnpos, hslot.depth, hslot.index⟩
    have hentry : s'.entry c j = keep (s.entry c j) := by rw [hmoved.old hd j hj, if_pos hpj]
    obtain ⟨hbits, hframe⟩ := hmoved.copy.table hd j hj
    rw [h'.getRefs_eq (by rwa [hclaim.total])]
    by_contra hle
    have hkey := eq_of_deg_le_one (le_trans (Nat.le_add_right _ _) (not_lt.mp hle))
      (h'.slot_mem hold) (h'.slot_mem hnew)
      (target_eq_some_iff.mpr ⟨⟨by rw [hentry, present_keep, hpj],
        by rw [hentry, shared_keep, hshj]⟩, by rw [hentry, ppn_keep]⟩)
      (target_eq_some_iff.mpr ⟨⟨hbits.present_eq.trans hpj,
        (hbits.shared_eq hpj).trans hshj⟩, hframe hpj⟩)
    exact hcn (Prod.mk.inj hkey).1

/-- The path below a copied table goes on as before, and so many frames of it have several
references now. -/
theorem walkFrom_unshare {es : List GenericPagingTable} (hl : d + (level + 1) = 3)
    (h : Settled base s live pos) (hr : r ∈ live) (hv : v < userPages)
    (ht : frameAt s r v d = some t)
    (hp : present (s.entry t (tableIndex (level + 1) v)) = true)
    (hrefs : 1 < s.pageMap.getRefs (ppn (s.entry t (tableIndex (level + 1) v))))
    (hu : AddrSpace.unshare (level + 1) t (tableIndex (level + 1) v) s = some s')
    (hes : walkFrom s v level (ppn (s.entry t (tableIndex (level + 1) v))) = some es) :
    ∃ es', walkFrom s' v level (ppn (s'.entry t (tableIndex (level + 1) v))) = some es' ∧
      copies s'.pageMap false es' = copies s.pageMap true es ∧
      es'.all writable = es.all writable := by
  have hlevel : 3 - d = level + 1 := by omega
  have hs := h.frameAt_slot hr hv (by omega) ht
  rw [hlevel] at hs
  have hw := ((h.entries hs hp).upper (by omega)).2.2.1
  have hu' : AddrSpace.unshare (3 - d) t (tableIndex (level + 1) v) s = some s' := by rwa [hlevel]
  obtain ⟨n, s₁, ha, hmoved⟩ := h.unshare_moved hs hp hrefs hu'
  obtain ⟨hnpos, -⟩ := h.alloc ha
  obtain ⟨-, -, hn, -, -, -⟩ := Vm.alloc_eq_some ha
  have hppn : ppn (s'.entry t (tableIndex (level + 1) v)) = n := by
    rw [hmoved.entry, ppn_relink, Nat.mod_eq_of_lt (lt_of_lt_of_le hn s.pageMap.fits)]
  have hchild : frameAt s r v (d + 1) = some (ppn (s.entry t (tableIndex (level + 1) v))) :=
    frameAt_succ_eq_some_iff.mpr ⟨t, ht, by rwa [hlevel], by rw [hlevel]⟩
  have hcs := h.frameAt_slot hr hv (by omega) hchild
  rw [show 3 - (d + 1) = level by omega] at hcs
  have hj : tableIndex level v < 512 := tableIndex_lt level v
  obtain ⟨hbits, hframe⟩ := hmoved.copy.table (by omega) _ hj
  set c := ppn (s.entry t (tableIndex (level + 1) v)) with hc
  have hfirst : present (s.entry c (tableIndex level v)) = true →
      (1 < s'.pageMap.getRefs (ppn (s'.entry n (tableIndex level v))) ↔
        recounted s.pageMap (s.entry c (tableIndex level v)) = true ∨
          1 < s.pageMap.getRefs (ppn (s.entry c (tableIndex level v)))) := by
    intro hpj
    rw [hframe hpj]
    exact h.one_lt_getRefs_unshare hs (by omega) hp hw hrefs hu' hj hpj
  rw [hppn]
  cases level with
  | zero =>
    rw [walkFrom_zero] at hes ⊢
    split_ifs at hes with hpj
    cases hes
    rw [if_pos (hbits.present_eq.trans hpj)]
    refine ⟨_, rfl, ?_, ?_⟩
    · simp only [copies, Bool.false_and, Bool.false_or, Bool.true_and, decide_eq_true_eq,
        Bool.or_eq_true, hfirst hpj]
    · simp only [List.all_cons, List.all_nil, Bool.and_true]
      exact hbits.writable_eq hpj
  | succ level =>
    rw [walkFrom_succ] at hes ⊢
    split_ifs at hes with hpj
    obtain ⟨es', hes', rfl⟩ := Option.map_eq_some_iff.mp hes
    have hrest : frameAt s r v (d + 2) = some (ppn (s.entry c (tableIndex (level + 1) v))) :=
      frameAt_succ_eq_some_iff.mpr ⟨c, hchild, by rwa [show 3 - (d + 1) = level + 1 by omega],
        by rw [show 3 - (d + 1) = level + 1 by omega]⟩
    have hwalk : walkFrom s' v level (ppn (s.entry c (tableIndex (level + 1) v))) = some es' := by
      refine walkFrom_congr (by omega) hrest (fun k hk hk' u hu => Vm.entry_congr ?_) hes'
      have hus := h.frameAt_slot hr hv (by omega) hu
      refine hmoved.other u (hus.ne_of_depth hs (by omega)).symm ?_
        fun he => absurd he (hus.ne_of_depth hcs (by omega)).symm
      rintro rfl
      simpa [hnpos] using hus.pos_eq
    have hcopies : ∀ b, copies s'.pageMap b es' = copies s.pageMap b es' := by
      intro b
      refine copies_congr (unshare_frame hu).1 fun e he => ?_
      obtain ⟨k, hk, hk', he⟩ := entryAt_of_mem_walkFrom (by omega) hrest hes' he
      obtain ⟨u, hu, rfl, hpu⟩ := entryAt_eq_some_iff.mp he
      have hus := h.frameAt_slot hr hv (by omega) hu
      have hdepth : ∀ {d' q'}, pos (ppn (s.entry u (tableIndex (3 - k) v))) = some (d', q') →
          d' = k + 1 := fun hpos => (h.used_of_slot hus hpu (h.bounded hpos).1).2 hpos
      refine h.getRefs_unshare hs hp hrefs hu' (fun hlt => (h.used_of_slot hus hpu hlt).1)
        (fun heq => ?_) fun q' hpos => ?_
      · have := hdepth (by rw [heq]; exact hcs.pos_eq)
        omega
      · have := hdepth hpos
        omega
    rw [if_pos (hbits.present_eq.trans hpj), hframe hpj, hwalk]
    refine ⟨_, rfl, ?_, ?_⟩
    · simp only [copies, Bool.false_and, Bool.false_or, Bool.true_and, decide_eq_true_eq,
        Bool.or_eq_true, hfirst hpj, hcopies]
    · simp only [List.all_cons, hbits.writable_eq hpj]

theorem claimEntry_of_refs_le (level : ℕ)
    (hrefs : ¬ 1 < s.pageMap.getRefs (ppn (s.entry t i))) :
    ∃ s₁, AddrSpace.claimEntry level t i s = some s₁ ∧ s₁.pageMap = s.pageMap ∧
      (∀ g, g ≠ t → s₁.mem g = s.mem g) ∧ ppn (s₁.entry t i) = ppn (s.entry t i) := by
  rw [AddrSpace.claimEntry, if_neg hrefs]
  split_ifs
  · exact ⟨_, rfl, rfl, fun _ hg => Vm.mem_setEntry_of_ne hg, by
      rw [Vm.entry_setEntry_self, ppn_setWrite]⟩
  · exact ⟨s, rfl, rfl, fun _ _ => rfl, rfl⟩

/-- `triggerCow` returns on a page that may be written, if there is a frame for each copy. -/
theorem exists_triggerCowFrom_iff {es : List GenericPagingTable} (hl : d + level = 3)
    (h : Settled base s live pos) (hr : r ∈ live) (hv : v < userPages)
    (ht : frameAt s r v d = some t) (hes : walkFrom s v level t = some es)
    (hw : es.all writable = true) :
    (∃ b s', AddrSpace.triggerCowFrom v level t s = some (b, s')) ↔
      copies s.pageMap false es ≤ s.pageMap.freeFrames := by
  induction level generalizing d t s base pos es with
  | zero =>
    obtain rfl : d = 3 := by omega
    have hs := h.frameAt_slot hr hv (by omega) ht
    rw [walkFrom_zero] at hes
    split_ifs at hes with hp
    cases hes
    simp only [List.all_cons, List.all_nil, Bool.and_true] at hw
    have hclaim : (∃ s', AddrSpace.claimEntry 0 t (tableIndex 0 v) s = some s') ↔
        copies s.pageMap false [s.entry t (tableIndex 0 v)] ≤ s.pageMap.freeFrames := by
      by_cases hrefs : 1 < s.pageMap.getRefs (ppn (s.entry t (tableIndex 0 v)))
      · have hexists := h.exists_unshare_iff hs hp hrefs
        simpa [AddrSpace.claimEntry, hrefs, copies, Nat.one_le_iff_ne_zero, Nat.pos_iff_ne_zero]
          using hexists
      · obtain ⟨s₁, hs₁, -⟩ := claimEntry_of_refs_le 0 hrefs
        simp [hs₁, copies, hrefs]
    rw [← hclaim, triggerCowFrom_zero, if_pos ⟨hp, hw⟩]
    constructor
    · rintro ⟨b, s', hc⟩
      obtain ⟨s₁, hs₁, -⟩ := Option.map_eq_some_iff.mp hc
      exact ⟨s₁, hs₁⟩
    · rintro ⟨s₁, hs₁⟩
      exact ⟨true, s₁, by rw [hs₁]; rfl⟩
  | succ level ih =>
    have hlevel : 3 - d = level + 1 := by omega
    have hs := h.frameAt_slot hr hv (by omega) ht
    rw [hlevel] at hs
    rw [walkFrom_succ] at hes
    split_ifs at hes with hp
    obtain ⟨es', hes', rfl⟩ := Option.map_eq_some_iff.mp hes
    rw [List.all_cons, Bool.and_eq_true] at hw
    have hchild : frameAt s r v (d + 1) = some (ppn (s.entry t (tableIndex (level + 1) v))) :=
      frameAt_succ_eq_some_iff.mpr ⟨t, ht, by rwa [hlevel], by rw [hlevel]⟩
    -- what is left to do after the entry has been claimed
    have hrest : ∀ {s₁}, AddrSpace.claimEntry (level + 1) t (tableIndex (level + 1) v) s = some s₁ →
        ∀ {es₁}, walkFrom s₁ v level (ppn (s₁.entry t (tableIndex (level + 1) v))) = some es₁ →
        es₁.all writable = true →
        ((∃ b s', AddrSpace.triggerCowFrom v (level + 1) t s = some (b, s')) ↔
          copies s₁.pageMap false es₁ ≤ s₁.pageMap.freeFrames) := by
      intro s₁ hs₁ es₁ hes₁ hw₁
      obtain ⟨base₁, pos₁, h₁, hclaim, -⟩ := h.claimEntry hs hp hw.1 (by rwa [hlevel])
      obtain ⟨-, hchild₁⟩ := h.frameAt_claimed hr hv (by omega) ht (by rwa [hlevel])
      rw [hlevel] at hchild₁
      rw [← ih (by omega) h₁ hchild₁ hes₁ hw₁, triggerCowFrom_succ, if_pos hp, hs₁,
        Option.bind_some]
    by_cases hrefs : 1 < s.pageMap.getRefs (ppn (s.entry t (tableIndex (level + 1) v)))
    · have hclaim : AddrSpace.claimEntry (level + 1) t (tableIndex (level + 1) v) s =
          AddrSpace.unshare (level + 1) t (tableIndex (level + 1) v) s := by
        rw [AddrSpace.claimEntry, if_pos hrefs]
      have hcopies : copies s.pageMap false (s.entry t (tableIndex (level + 1) v) :: es') =
          copies s.pageMap true es' + 1 := by
        simp [copies, hrefs]
      rw [hcopies]
      have hexists := h.exists_unshare_iff hs hp hrefs
      rw [hlevel] at hexists
      rcases hu : AddrSpace.unshare (level + 1) t (tableIndex (level + 1) v) s with _ | s₁
      · have hnone : s.pageMap.freeFrames = 0 := by simpa [hu] using hexists
        rw [triggerCowFrom_succ, if_pos hp, hclaim, hu, hnone]
        simp
      · obtain ⟨es₁, hes₁, hcop, hall⟩ := walkFrom_unshare hl h hr hv ht hp hrefs hu hes'
        have hcount := h.freeFrames_unshare hs hp hw.1 hrefs (by rwa [hlevel])
        rw [hrest (hclaim.trans hu) hes₁ (hall.trans hw.2), hcop]
        omega
    · obtain ⟨s₁, hs₁, hpm, hmem, hppn⟩ := claimEntry_of_refs_le (level + 1) hrefs
      have hes₁ : walkFrom s₁ v level (ppn (s₁.entry t (tableIndex (level + 1) v))) = some es' := by
        rw [hppn]
        refine walkFrom_congr (by omega) hchild (fun k hk hk' u hu => Vm.entry_congr ?_) hes'
        have hus := h.frameAt_slot hr hv (by omega) hu
        exact hmem u (hus.ne_of_depth hs (by omega)).symm
      have hcopies : copies s.pageMap false (s.entry t (tableIndex (level + 1) v) :: es') =
          copies s.pageMap false es' := by
        simp [copies, hrefs]
      rw [hrest hs₁ hes₁ hw.2, hcopies, hpm]

theorem exists_triggerCow_iff {p : Page} (h : Settled base s live pos) (hr : r ∈ live)
    (hv : v < userPages) (hp : view s r v = some p) (hw : p.writable = true) :
    (∃ b s', AddrSpace.triggerCow r v s = some (b, s')) ↔
      cowFrames s r v ≤ s.pageMap.freeFrames := by
  obtain ⟨es, hes, rfl⟩ := Option.map_eq_some_iff.mp hp
  rw [cowFrames, hes, Option.getD_some]
  exact exists_triggerCowFrom_iff (d := 0) rfl h hr hv rfl hes hw

end Settled

end Copy

end AddrSpace

end Koerix
