import Koerix.AddrSpace.Map

/-! # Page tables with one owner

The kernel address space is never cloned: within a region of its pages every
frame is reached along one path only. In such a tree one entry can be written
without touching any other path, so `map` adds one page and `unmap` takes one
away, together with the tables that become empty.
-/

namespace Koerix

open GenericPagingTable

namespace AddrSpace

/-- The frame that `resolve` finds at each depth, without looking at the present bits. -/
def chase (s : Vm) (pml4 virt : ℕ) : ℕ → ℕ
  | 0 => pml4
  | d + 1 => ppn (s.entry (chase s pml4 virt d) (tableIndex (3 - d) virt))

/-- The tables on the path by depth, then the page. A table beyond the physical memory is
beyond the identity mapping as well, and reading it is a fault. -/
def resolve (s : Vm) (pml4 virt : ℕ) : Option (ℕ → ℕ) :=
  if [1, 2, 3].all fun d => chase s pml4 virt d < s.pageMap.totalPages then
    some (chase s pml4 virt)
  else none

def checkForPresentEntries (s : Vm) (table : ℕ) : Bool :=
  (List.range 512).any fun i => present (s.entry table i)

/-- The loop of `unmap` from the given depth upwards: clear the entry, and release the table if
nothing is left in it. -/
def clearFrom (tables : ℕ → ℕ) (virt : ℕ) : ℕ → Vm → Option Vm
  | 0, s => some (s.setEntry (tables 0) (tableIndex 3 virt) 0)
  | d + 1, s =>
    let s := s.setEntry (tables (d + 1)) (tableIndex (3 - (d + 1)) virt) 0
    if checkForPresentEntries s (tables (d + 1)) then some s
    else do
      let s ← s.free (tables (d + 1))
      clearFrom tables virt d s

/-- The address of the page is never null, so its frame is freed without further ado. -/
def unmap (pml4 virt : ℕ) (s : Vm) : Option Vm := do
  let tables ← resolve s pml4 virt
  let s ← s.free (tables 4)
  clearFrom tables virt 3 s

/-- Every frame that the pages in `R` reach is reached along one path. -/
def Unique (R : Set ℕ) (pml4 : ℕ) (s : Vm) : Prop :=
  ∀ ⦃v v' d d' f⦄, v ∈ R → v' ∈ R → d ≤ 4 → d' ≤ 4 → frameAt s pml4 v d = some f →
    frameAt s pml4 v' d' = some f → d = d' ∧ prefixAt d v = prefixAt d v'

/-- Every table that the pages in `R` reach is reached along one path. -/
def Distinct (R : Set ℕ) (pml4 : ℕ) (s : Vm) : Prop :=
  ∀ ⦃v v' d d' t⦄, v ∈ R → v' ∈ R → d ≤ 3 → d' ≤ 3 → frameAt s pml4 v d = some t →
    frameAt s pml4 v' d' = some t → d = d' ∧ prefixAt d v = prefixAt d v'

/-- The frames are reached along one path, and all of them are in use. -/
structure Tree (R : Set ℕ) (pml4 : ℕ) (s : Vm) : Prop where
  unique : Unique R pml4 s
  used : ∀ {v d f}, v ∈ R → d ≤ 4 → frameAt s pml4 v d = some f →
    f < s.pageMap.totalPages ∧ s.pageMap.pagemap f ≠ 0

/-- The contents of a mapped page. -/
def pageMem (s : Vm) (pml4 v : ℕ) : Option (ℕ → BitVec 64) := (frameAt s pml4 v 4).map s.mem

variable {R : Set ℕ} {pml4 v v' d j t n f : ℕ} {s s' : Vm} {e : GenericPagingTable}

theorem frameAt_congr_mem (h : ∀ k < d, ∀ t, frameAt s pml4 v k = some t → s'.mem t = s.mem t) :
    frameAt s' pml4 v d = frameAt s pml4 v d := by
  refine frameAt_congr fun k hk t ht => ?_
  rw [Vm.entry_congr (h k hk t ht)]
  exact ⟨rfl, fun _ => rfl⟩

theorem frameAt_none_of_le (h : frameAt s pml4 v d = none) (hj : d ≤ j) :
    frameAt s pml4 v j = none := by
  by_contra hn
  obtain ⟨f, hf⟩ := Option.ne_none_iff_exists'.mp hn
  obtain ⟨u, hu⟩ := exists_frameAt_of_le hf hj
  simp [h] at hu

theorem Unique.distinct (h : Unique R pml4 s) : Distinct R pml4 s :=
  fun _ _ _ _ _ hv hv' hd hd' => h hv hv' (by omega) (by omega)

namespace Distinct

theorem frameAt_setEntry (h : Distinct R pml4 s) (hv : v ∈ R) (hv' : v' ∈ R) (hd : d < 4)
    (hj : j ≤ 4) (ht : frameAt s pml4 v d = some t)
    (hne : d < j → prefixAt (d + 1) v' ≠ prefixAt (d + 1) v) :
    frameAt (s.setEntry t (tableIndex (3 - d) v) e) pml4 v' j = frameAt s pml4 v' j := by
  refine frameAt_congr fun k hk u hu => ?_
  suffices hsame : u ≠ t ∨ tableIndex (3 - k) v' ≠ tableIndex (3 - d) v by
    rw [Vm.entry_setEntry_of_ne hsame]
    exact ⟨rfl, fun _ => rfl⟩
  by_contra hc
  obtain ⟨rfl, hi⟩ : u = t ∧ tableIndex (3 - k) v' = tableIndex (3 - d) v := by tauto
  obtain ⟨rfl, hq⟩ := h hv' hv (by omega) (by omega) hu ht
  exact hne hk (by rw [prefixAt_succ hd, prefixAt_succ hd, hq, hi])

theorem frameAt_setEntry_succ (h : Distinct R pml4 s) (hv : v ∈ R) (hv' : v' ∈ R) (hd : d < 4)
    (ht : frameAt s pml4 v d = some t) (hq : prefixAt (d + 1) v' = prefixAt (d + 1) v) :
    frameAt (s.setEntry t (tableIndex (3 - d) v) e) pml4 v' (d + 1) =
      if present e then some (ppn e) else none := by
  have hq' := prefixAt_eq_of_le (Nat.le_succ d) (by omega) hq
  have ht' : frameAt (s.setEntry t (tableIndex (3 - d) v) e) pml4 v' d = some t := by
    rw [h.frameAt_setEntry hv hv' hd (by omega) ht (fun hlt => absurd hlt (lt_irrefl d)),
      frameAt_congr_prefixAt (by omega) hq', ht]
  rw [frameAt, ht', Option.bind_some, tableIndex_eq_of_prefixAt_eq hd hq, Vm.entry_setEntry_self]

/-- Hanging a new frame into an absent entry on the path of `v`. -/
theorem frameAt_link (h : Distinct R pml4 s) (hv : v ∈ R) (hv' : v' ∈ R) (hd : d < 4) (hj : j ≤ 4)
    (ht : frameAt s pml4 v d = some t)
    (hfree : present (s.entry t (tableIndex (3 - d) v)) = false) (hnt : n ≠ t)
    (hempty : d < 3 → ∀ i, present (s.entry n i) = false) (he : present e = true)
    (hppn : ppn e = n) :
    frameAt (s.setEntry t (tableIndex (3 - d) v) e) pml4 v' j = some f ↔
      frameAt s pml4 v' j = some f ∨
        j = d + 1 ∧ prefixAt (d + 1) v' = prefixAt (d + 1) v ∧ f = n := by
  by_cases hc : d < j ∧ prefixAt (d + 1) v' = prefixAt (d + 1) v
  · obtain ⟨hdj, hq⟩ := hc
    have hold : frameAt s pml4 v' (d + 1) = none := by
      have ht' : frameAt s pml4 v' d = some t := by
        rw [frameAt_congr_prefixAt (by omega) (prefixAt_eq_of_le (Nat.le_succ d) (by omega) hq), ht]
      rw [frameAt, ht', Option.bind_some, tableIndex_eq_of_prefixAt_eq hd hq]
      simp [hfree]
    have hnew := h.frameAt_setEntry_succ (e := e) hv hv' hd ht hq
    rw [he, if_pos rfl, hppn] at hnew
    rw [frameAt_none_of_le hold hdj]
    rcases eq_or_ne j (d + 1) with rfl | hne
    · simp [hnew, hq, eq_comm]
    · have hstop : frameAt (s.setEntry t (tableIndex (3 - d) v) e) pml4 v' (d + 2) = none := by
        rw [frameAt, hnew, Option.bind_some, Vm.entry_setEntry_of_ne (Or.inl hnt)]
        simp [hempty (by omega)]
      rw [frameAt_none_of_le hstop (by omega)]
      simp [hne]
  · rw [h.frameAt_setEntry hv hv' hd hj ht fun hlt hq => hc ⟨hlt, hq⟩]
    constructor
    · exact Or.inl
    · rintro (hf | ⟨rfl, hq, -⟩)
      · exact hf
      · exact absurd ⟨Nat.lt_succ_self d, hq⟩ hc

theorem frameAt_clear (h : Distinct R pml4 s) (hv : v ∈ R) (hv' : v' ∈ R) (hd : d < 4)
    (hj : j ≤ 4) (ht : frameAt s pml4 v d = some t) :
    frameAt (s.setEntry t (tableIndex (3 - d) v) 0) pml4 v' j =
      if d < j ∧ prefixAt (d + 1) v' = prefixAt (d + 1) v then none else frameAt s pml4 v' j := by
  split_ifs with hc
  · refine frameAt_none_of_le (d := d + 1) ?_ hc.1
    rw [h.frameAt_setEntry_succ hv hv' hd ht hc.2, if_neg]
    rw [show (0 : GenericPagingTable) = 0#64 from rfl, present_zero]
    decide
  · exact h.frameAt_setEntry hv hv' hd hj ht fun hlt hq => hc ⟨hlt, hq⟩

end Distinct

namespace Tree

theorem mono (h : Tree R pml4 s)
    (hsub : ∀ v ∈ R, ∀ d ≤ 4, ∀ f, frameAt s' pml4 v d = some f → frameAt s pml4 v d = some f)
    (hused : ∀ v ∈ R, ∀ d ≤ 4, ∀ f, frameAt s' pml4 v d = some f →
      f < s'.pageMap.totalPages ∧ s'.pageMap.pagemap f ≠ 0) : Tree R pml4 s' where
  unique _ _ _ _ _ hv hv' hd hd' hf hf' :=
    h.unique hv hv' hd hd' (hsub _ hv _ hd _ hf) (hsub _ hv' _ hd' _ hf')
  used hv hd hf := hused _ hv _ hd _ hf

theorem congr (h : Tree R pml4 s) (hpm : s'.pageMap.totalPages = s.pageMap.totalPages)
    (hcounter : ∀ f, s.pageMap.pagemap f ≠ 0 → s'.pageMap.pagemap f ≠ 0)
    (hmem : ∀ v ∈ R, ∀ d < 4, ∀ f, frameAt s pml4 v d = some f → s'.mem f = s.mem f) :
    Tree R pml4 s' ∧ ∀ v ∈ R, ∀ d ≤ 4, frameAt s' pml4 v d = frameAt s pml4 v d := by
  have hframe : ∀ v ∈ R, ∀ d ≤ 4, frameAt s' pml4 v d = frameAt s pml4 v d :=
    fun v hv d hd => frameAt_congr_mem fun k hk t ht => hmem v hv k (by omega) t ht
  refine ⟨h.mono (fun v hv d hd f hf => (hframe v hv d hd).symm.trans hf) ?_, hframe⟩
  intro v hv d hd f hf
  rw [hframe v hv d hd] at hf
  obtain ⟨hlt, hne⟩ := h.used hv hd hf
  exact ⟨hpm ▸ hlt, hcounter f hne⟩

theorem mem_setEntry_page (h : Tree R pml4 s) (hv : v ∈ R) (hv' : v' ∈ R) (hd : d < 4)
    (ht : frameAt s pml4 v d = some t) (hf : frameAt s pml4 v' 4 = some f) (i : ℕ) :
    (s.setEntry t i e).mem f = s.mem f := by
  refine Vm.mem_setEntry_of_ne ?_
  rintro rfl
  have := (h.unique hv hv' (by omega) le_rfl ht hf).1
  omega

end Tree

/-- The tree stays a tree, and every page but `v` stays as it is. -/
structure Rest (R : Set ℕ) (pml4 v : ℕ) (s s' : Vm) : Prop where
  tree : Tree R pml4 s'
  total : s'.pageMap.totalPages = s.pageMap.totalPages
  page : ∀ v' ∈ R, v' ≠ v → pageMem s' pml4 v' = pageMem s pml4 v'

theorem Rest.trans {s'' : Vm} (h : Rest R pml4 v s s') (h' : Rest R pml4 v s' s'') :
    Rest R pml4 v s s'' where
  tree := h'.tree
  total := h'.total.trans h.total
  page v' hv' hne := (h'.page v' hv' hne).trans (h.page v' hv' hne)

/-- The frame is not on the tree, and nobody else is going to get it. -/
structure Spare (R : Set ℕ) (pml4 n : ℕ) (s : Vm) : Prop where
  off : ∀ v ∈ R, ∀ d ≤ 4, frameAt s pml4 v d ≠ some n
  lt : n < s.pageMap.totalPages
  used : s.pageMap.pagemap n ≠ 0

namespace Tree

/-- A frame fresh from `alloc` is spare, also once it has been filled. -/
theorem alloc (h : Tree R pml4 s) (ha : s.alloc = some (n, s')) (words : ℕ → BitVec 64) :
    Rest R pml4 v s (s'.setFrame n words) ∧ Spare R pml4 n (s'.setFrame n words) ∧
      ∀ v ∈ R, ∀ d ≤ 4, frameAt (s'.setFrame n words) pml4 v d = frameAt s pml4 v d := by
  obtain ⟨hmem, -, hn, hz, ht, hp⟩ := Vm.alloc_eq_some ha
  have hoff : ∀ v ∈ R, ∀ d ≤ 4, frameAt s pml4 v d ≠ some n :=
    fun v hv d hd hf => (h.used hv hd hf).2 hz
  have hmem' : ∀ f ≠ n, (s'.setFrame n words).mem f = s.mem f := by
    intro f hne
    rw [Vm.mem_setFrame_of_ne hne, hmem]
  obtain ⟨htree, hframe⟩ : Tree R pml4 (s'.setFrame n words) ∧ ∀ v ∈ R, ∀ d ≤ 4,
      frameAt (s'.setFrame n words) pml4 v d = frameAt s pml4 v d := h.congr ht
    (fun f hf => by
      rcases eq_or_ne f n with rfl | hne
      · exact absurd hz hf
      · simpa [hp, hne] using hf)
    (fun v hv d hd f hf => hmem' f fun he => hoff v hv d (by omega) (he ▸ hf))
  refine ⟨⟨htree, ht, fun v' hv' _ => ?_⟩, ⟨?_, ht ▸ hn, by simp [hp]⟩, hframe⟩
  · rw [pageMem, pageMem, hframe v' hv' 4 le_rfl]
    refine Option.map_congr fun f hf => hmem' f fun he => hoff v' hv' 4 le_rfl (he ▸ hf)
  · intro v hv d hd
    rw [hframe v hv d hd]
    exact hoff v hv d hd

/-- Hanging a spare frame into an absent entry keeps the tree. -/
theorem link (h : Tree R pml4 s) (hv : v ∈ R) (hd : d < 4) (ht : frameAt s pml4 v d = some t)
    (hfree : present (s.entry t (tableIndex (3 - d) v)) = false) (hn : Spare R pml4 n s)
    (hempty : d < 3 → ∀ i, present (s.entry n i) = false) (he : present e = true)
    (hppn : ppn e = n) :
    Rest R pml4 v s (s.setEntry t (tableIndex (3 - d) v) e) ∧
      frameAt (s.setEntry t (tableIndex (3 - d) v) e) pml4 v (d + 1) = some n ∧
      ∀ m, m ≠ n → Spare R pml4 m s → Spare R pml4 m (s.setEntry t (tableIndex (3 - d) v) e) := by
  have hnt : n ≠ t := fun hc => hn.off v hv d (by omega) (hc ▸ ht)
  have hiff : ∀ v' ∈ R, ∀ j ≤ 4, ∀ f,
      frameAt (s.setEntry t (tableIndex (3 - d) v) e) pml4 v' j = some f ↔ _ :=
    fun v' hv' j hj f => h.unique.distinct.frameAt_link hv hv' hd hj ht hfree hnt hempty he hppn
  refine ⟨⟨⟨?_, ?_⟩, rfl, ?_⟩, (hiff v hv (d + 1) (by omega) n).mpr (Or.inr ⟨rfl, rfl, rfl⟩), ?_⟩
  · intro v₁ v₂ d₁ d₂ f hv₁ hv₂ hd₁ hd₂ hf₁ hf₂
    rcases (hiff v₁ hv₁ d₁ hd₁ f).mp hf₁ with ho₁ | ⟨rfl, hq₁, rfl⟩
    · rcases (hiff v₂ hv₂ d₂ hd₂ f).mp hf₂ with ho₂ | ⟨rfl, hq₂, rfl⟩
      · exact h.unique hv₁ hv₂ hd₁ hd₂ ho₁ ho₂
      · exact absurd ho₁ (hn.off v₁ hv₁ d₁ hd₁)
    · rcases (hiff v₂ hv₂ d₂ hd₂ f).mp hf₂ with ho₂ | ⟨rfl, hq₂, -⟩
      · exact absurd ho₂ (hn.off v₂ hv₂ d₂ hd₂)
      · exact ⟨rfl, hq₁.trans hq₂.symm⟩
  · intro v' j f hv' hj hf
    rcases (hiff v' hv' j hj f).mp hf with ho | ⟨-, -, rfl⟩
    · exact h.used hv' hj ho
    · exact ⟨hn.lt, hn.used⟩
  · intro v' hv' hne
    have hframe : frameAt (s.setEntry t (tableIndex (3 - d) v) e) pml4 v' 4 =
        frameAt s pml4 v' 4 := by
      ext f
      rw [hiff v' hv' 4 le_rfl f]
      constructor
      · rintro (ho | ⟨hd4, hq, -⟩)
        · exact ho
        · rw [← hd4] at hq
          exact absurd (by simpa [prefixAt] using hq) hne
      · exact Or.inl
    rw [pageMem, pageMem, hframe]
    exact Option.map_congr fun f hf => h.mem_setEntry_page hv hv' hd ht hf _
  · intro m hm hs
    refine ⟨fun v' hv' j hj hf => ?_, hs.lt, hs.used⟩
    rcases (hiff v' hv' j hj m).mp hf with ho | ⟨-, -, he⟩
    · exact hs.off v' hv' j hj ho
    · exact hm he

/-- One more table on the way of `map`. -/
theorem addTable {phys level : ℕ} (h : Tree R pml4 s) (hv : v ∈ R) (hl : d + (level + 1) = 3)
    (ht : frameAt s pml4 v d = some t)
    (hp : present (s.entry t (tableIndex (level + 1) v)) = false) (hphys : Spare R pml4 phys s)
    (ha : s.alloc = some (n, s')) :
    Rest R pml4 v s ((s'.setFrame n fun _ => 0).setEntry t (tableIndex (level + 1) v) (ofTable n)) ∧
      frameAt ((s'.setFrame n fun _ => 0).setEntry t (tableIndex (level + 1) v) (ofTable n))
        pml4 v (d + 1) = some (ppn (ofTable n)) ∧
      frameAt ((s'.setFrame n fun _ => 0).setEntry t (tableIndex (level + 1) v) (ofTable n))
        pml4 v 4 = none ∧
      Spare R pml4 phys
        ((s'.setFrame n fun _ => 0).setEntry t (tableIndex (level + 1) v) (ofTable n)) := by
  obtain ⟨hrest, hspare, hframe⟩ := h.alloc (v := v) ha fun _ => 0
  obtain ⟨hmem, -, hn, hz, htot, hpm⟩ := Vm.alloc_eq_some ha
  have hlevel : 3 - d = level + 1 := by omega
  have hppn : ppn (ofTable n) = n := by
    rw [ppn_ofTable, Nat.mod_eq_of_lt (lt_of_lt_of_le hn s.pageMap.fits)]
  have hnt : t ≠ n := by
    rintro rfl
    exact (h.used hv (by omega) ht).2 hz
  have hne : phys ≠ n := fun he => hphys.used (he ▸ hz)
  have ht₁ := (hframe v hv d (by omega)).trans ht
  have hfree : present ((s'.setFrame n fun _ => 0).entry t (tableIndex (3 - d) v)) = false := by
    rw [Vm.entry_setFrame_of_ne hnt, Vm.entry_congr (congrFun hmem t), hlevel, hp]
  have hphys₁ : Spare R pml4 phys (s'.setFrame n fun _ => 0) := by
    refine ⟨fun v' hv' j hj => ?_, htot ▸ hphys.lt, ?_⟩
    · rw [hframe v' hv' j hj]
      exact hphys.off v' hv' j hj
    · simpa [hpm, hne] using hphys.used
  have hzero : ∀ i, present ((s'.setFrame n fun _ => 0).entry n i) = false :=
    fun i => by simp [Vm.entry]
  obtain ⟨hrest', hframe', hkeep⟩ := hrest.tree.link (e := ofTable n) hv (by omega) ht₁ hfree
    hspare (fun _ => hzero) (by simp) hppn
  rw [hlevel] at hrest' hframe' hkeep
  refine ⟨hrest.trans hrest', by rw [hframe', hppn], ?_, hkeep phys hne hphys₁⟩
  refine frameAt_none_of_le (d := d + 2) ?_ (by omega)
  rw [frameAt, hframe', Option.bind_some, Vm.entry_setEntry_of_ne (Or.inl hnt.symm)]
  simpa using hzero _

/-- `map` on a page that is not mapped needs a free frame for each level above the page table. -/
theorem mapFrom {phys level : ℕ} (flags : MapFlags) (h : Tree R pml4 s) (hv : v ∈ R)
    (hl : d + level = 3) (ht : frameAt s pml4 v d = some t) (hun : frameAt s pml4 v 4 = none)
    (hphys : Spare R pml4 phys s) :
    (∀ s', AddrSpace.mapFrom v phys flags level t s = some s' →
      Rest R pml4 v s s' ∧ frameAt s' pml4 v 4 = some phys) ∧
    (level ≤ s.pageMap.freeFrames → ∃ s', AddrSpace.mapFrom v phys flags level t s = some s' ∧
      s.pageMap.freeFrames ≤ s'.pageMap.freeFrames + level) := by
  induction level generalizing d t s with
  | zero =>
    obtain rfl : d = 3 := by omega
    have hfree : present (s.entry t (tableIndex 0 v)) = false := by
      by_contra hp
      rw [frameAt, ht, Option.bind_some] at hun
      simp [Bool.not_eq_false _ |>.mp hp] at hun
    have hppn : ppn (ofPage phys flags) = phys := by
      rw [ppn_ofPage, Nat.mod_eq_of_lt (lt_of_lt_of_le hphys.lt s.pageMap.fits)]
    obtain ⟨hrest, hframe, -⟩ := h.link (e := ofPage phys flags) hv (by decide) ht hfree hphys
      (fun h3 => absurd h3 (lt_irrefl 3)) (by simp) hppn
    have heq : AddrSpace.mapFrom v phys flags 0 t s =
        some (s.setEntry t (tableIndex 0 v) (ofPage phys flags)) := by
      simp [AddrSpace.mapFrom, hfree]
    refine ⟨fun s' hs' => ?_, fun _ => ⟨_, heq, le_rfl⟩⟩
    obtain rfl := Option.some.inj (heq.symm.trans hs')
    exact ⟨hrest, hframe⟩
  | succ level ih =>
    have hlevel : 3 - d = level + 1 := by omega
    rcases hp : present (s.entry t (tableIndex (level + 1) v)) with _ | _
    · have hstep : AddrSpace.mapFrom v phys flags (level + 1) t s = s.alloc.bind fun p =>
          AddrSpace.mapFrom v phys flags level (ppn (ofTable p.1))
            ((p.2.setFrame p.1 fun _ => 0).setEntry t (tableIndex (level + 1) v)
              (ofTable p.1)) := by
        simp [AddrSpace.mapFrom, hp]
      constructor
      · intro s' hs'
        rw [hstep, Option.bind_eq_some_iff] at hs'
        obtain ⟨⟨n, s₁⟩, ha, hm⟩ := hs'
        obtain ⟨hrest, hf, hun', hph⟩ := h.addTable hv hl ht hp hphys ha
        obtain ⟨hrest', hf'⟩ := (ih hrest.tree (by omega) hf hun' hph).1 s' hm
        exact ⟨hrest.trans hrest', hf'⟩
      · intro hle
        obtain ⟨n, m, hm⟩ := PageMap.exists_alloc (m := s.pageMap) (by omega)
        have ha : s.alloc = some (n, { s with pageMap := m }) := by rw [Vm.alloc, hm]; rfl
        obtain ⟨hrest, hf, hun', hph⟩ := h.addTable hv hl ht hp hphys ha
        have hcount := PageMap.freeFrames_alloc hm
        obtain ⟨s', hs', hle'⟩ := (ih hrest.tree (by omega) hf hun' hph).2 (by
          simp only [Vm.pageMap_setEntry, Vm.pageMap_setFrame]
          omega)
        simp only [Vm.pageMap_setEntry, Vm.pageMap_setFrame] at hle'
        refine ⟨s', ?_, by omega⟩
        rw [hstep, ha, Option.bind_some]
        exact hs'
    · have hstep : AddrSpace.mapFrom v phys flags (level + 1) t s =
          AddrSpace.mapFrom v phys flags level (ppn (s.entry t (tableIndex (level + 1) v))) s := by
        simp [AddrSpace.mapFrom, hp]
      have ht' : frameAt s pml4 v (d + 1) = some (ppn (s.entry t (tableIndex (level + 1) v))) :=
        frameAt_succ_eq_some_iff.mpr ⟨t, ht, by rwa [hlevel], by rw [hlevel]⟩
      obtain ⟨hsound, htotal⟩ := ih h (by omega) ht' hun hphys
      rw [hstep]
      refine ⟨hsound, fun hle => ?_⟩
      obtain ⟨s', hs', hle'⟩ := htotal (by omega)
      exact ⟨s', hs', by omega⟩

end Tree

theorem chase_eq (hf : frameAt s pml4 v 4 = some f) (hd : d ≤ 4) :
    frameAt s pml4 v d = some (chase s pml4 v d) := by
  induction d with
  | zero => rfl
  | succ d ih =>
    have ht := ih (by omega)
    exact frameAt_succ_eq_some_iff.mpr ⟨_, ht, present_of_frameAt hf (by omega) ht, rfl⟩

/-- A tree up to the branch of `v` below depth `d`, whose frames are already released. -/
structure Pruned (R : Set ℕ) (pml4 v d : ℕ) (s : Vm) : Prop where
  unique : Unique R pml4 s
  used : ∀ {v' j f}, v' ∈ R → j ≤ 4 → frameAt s pml4 v' j = some f →
    (d < j → prefixAt (d + 1) v' ≠ prefixAt (d + 1) v) →
    f < s.pageMap.totalPages ∧ s.pageMap.pagemap f ≠ 0

namespace Pruned

theorem clear (h : Pruned R pml4 v d s) (hv : v ∈ R) (hd : d < 4)
    (ht : frameAt s pml4 v d = some t) :
    Tree R pml4 (s.setEntry t (tableIndex (3 - d) v) 0) := by
  have hframe := fun v' (hv' : v' ∈ R) j (hj : j ≤ 4) =>
    h.unique.distinct.frameAt_clear hv hv' hd hj ht
  refine ⟨fun v₁ v₂ d₁ d₂ f hv₁ hv₂ hd₁ hd₂ hf₁ hf₂ => ?_, fun {v' j f} hv' hj hf => ?_⟩
  · rw [hframe v₁ hv₁ d₁ hd₁, Option.ite_none_left_eq_some] at hf₁
    rw [hframe v₂ hv₂ d₂ hd₂, Option.ite_none_left_eq_some] at hf₂
    exact h.unique hv₁ hv₂ hd₁ hd₂ hf₁.2 hf₂.2
  · rw [hframe v' hv' j hj, Option.ite_none_left_eq_some] at hf
    exact h.used hv' hj hf.2 fun hlt hq => hf.1 ⟨hlt, hq⟩

theorem frameAt_clear_page (h : Pruned R pml4 v d s) (hv : v ∈ R) (hd : d < 4)
    (ht : frameAt s pml4 v d = some t)
    (hempty : ∀ v' ∈ R, v' ≠ v → prefixAt (d + 1) v' = prefixAt (d + 1) v →
      frameAt s pml4 v' 4 = none) :
    frameAt (s.setEntry t (tableIndex (3 - d) v) 0) pml4 v 4 = none ∧
      ∀ v' ∈ R, v' ≠ v →
        frameAt (s.setEntry t (tableIndex (3 - d) v) 0) pml4 v' 4 = frameAt s pml4 v' 4 := by
  constructor
  · rw [h.unique.distinct.frameAt_clear hv hv hd le_rfl ht, if_pos ⟨hd, rfl⟩]
  · intro v' hv' hne
    rw [h.unique.distinct.frameAt_clear hv hv' hd le_rfl ht]
    split_ifs with hc
    · exact (hempty v' hv' hne hc.2).symm
    · rfl

end Pruned

theorem Tree.free (h : Tree R pml4 s) (hv : v ∈ R) (hd : d < 4)
    (ht : frameAt s pml4 v (d + 1) = some t) :
    ∃ s', s.free t = some s' ∧ s'.mem = s.mem ∧
      s'.pageMap.totalPages = s.pageMap.totalPages ∧ Pruned R pml4 v d s' := by
  obtain ⟨hlt, hne⟩ := h.used hv (by omega) ht
  obtain ⟨m, hm⟩ : ∃ m, s.pageMap.free t = some m := PageMap.free_of_pos fun _ => hne
  have hs' : s.free t = some { s with pageMap := m } := by rw [Vm.free, hm]; rfl
  obtain ⟨hmem, -, -, htot, hp⟩ := Vm.free_eq_some hs' hlt
  have hframe : ∀ v' j, frameAt { s with pageMap := m } pml4 v' j = frameAt s pml4 v' j :=
    fun v' j => frameAt_congr_mem fun k _ u _ => congrFun hmem u
  refine ⟨_, hs', hmem, htot, fun v₁ v₂ d₁ d₂ f hv₁ hv₂ hd₁ hd₂ hf₁ hf₂ => ?_,
    fun {v' j f} hv' hj hf hout => ?_⟩
  · rw [hframe] at hf₁ hf₂
    exact h.unique hv₁ hv₂ hd₁ hd₂ hf₁ hf₂
  · rw [hframe] at hf
    have hft : f ≠ t := by
      rintro rfl
      obtain ⟨rfl, hq⟩ := h.unique hv' hv hj (by omega) hf ht
      exact hout (Nat.lt_succ_self d) hq
    obtain ⟨hlt', hne'⟩ := h.used hv' hj hf
    refine ⟨htot ▸ hlt', ?_⟩
    rw [hp, Function.update_of_ne hft]
    exact hne'


theorem not_present_of_check (h : checkForPresentEntries s t = false) (i : ℕ) (hi : i < 512) :
    present (s.entry t i) = false := by
  simp only [checkForPresentEntries, List.any_eq_false, List.mem_range] at h
  simpa using h i hi

/-- The upward loop of `unmap`: the branch of `v` goes, with the tables that become empty. -/
theorem Pruned.clearFrom {tables : ℕ → ℕ} (h : Pruned R pml4 v d s) (hv : v ∈ R) (hd : d < 4)
    (htables : ∀ j ≤ d, frameAt s pml4 v j = some (tables j))
    (hempty : ∀ v' ∈ R, v' ≠ v → prefixAt (d + 1) v' = prefixAt (d + 1) v →
      frameAt s pml4 v' 4 = none) :
    ∃ s', AddrSpace.clearFrom tables v d s = some s' ∧ Tree R pml4 s' ∧
      s'.pageMap.totalPages = s.pageMap.totalPages ∧ frameAt s' pml4 v 4 = none ∧
      (∀ v' ∈ R, v' ≠ v → frameAt s' pml4 v' 4 = frameAt s pml4 v' 4) ∧
      ∀ g, (∀ j ≤ d, g ≠ tables j) → s'.mem g = s.mem g := by
  induction d generalizing s with
  | zero =>
    have ht := htables 0 le_rfl
    obtain ⟨hself, hother⟩ := h.frameAt_clear_page hv hd ht hempty
    exact ⟨_, rfl, h.clear hv hd ht, rfl, hself, hother,
      fun g hg => Vm.mem_setEntry_of_ne (hg 0 le_rfl)⟩
  | succ d ih =>
    have ht := htables (d + 1) le_rfl
    obtain ⟨hself, hother⟩ := h.frameAt_clear_page hv hd ht hempty
    have htree := h.clear hv hd ht
    have hmem : ∀ g, (∀ j ≤ d + 1, g ≠ tables j) →
        (s.setEntry (tables (d + 1)) (tableIndex (3 - (d + 1)) v) 0).mem g = s.mem g :=
      fun g hg => Vm.mem_setEntry_of_ne (hg (d + 1) le_rfl)
    have htop : ∀ j ≤ d + 1, frameAt (s.setEntry (tables (d + 1)) (tableIndex (3 - (d + 1)) v) 0)
        pml4 v j = some (tables j) := by
      intro j hj
      rw [h.unique.distinct.frameAt_clear hv hv hd (by omega) ht, if_neg (by omega), htables j hj]
    rw [AddrSpace.clearFrom]
    set s₁ := s.setEntry (tables (d + 1)) (tableIndex (3 - (d + 1)) v) 0
    rcases hc : checkForPresentEntries s₁ (tables (d + 1)) with _ | _
    · obtain ⟨s₂, hs₂, hmem₂, htot₂, hpruned⟩ := htree.free hv (by omega) (htop (d + 1) le_rfl)
      have hframe₂ : ∀ v' j, frameAt s₂ pml4 v' j = frameAt s₁ pml4 v' j :=
        fun v' j => frameAt_congr_mem fun k _ u _ => congrFun hmem₂ u
      -- nothing is left below the table, so nothing is lost with it
      have hempty₂ : ∀ v' ∈ R, v' ≠ v → prefixAt (d + 1) v' = prefixAt (d + 1) v →
          frameAt s₂ pml4 v' 4 = none := by
        intro v' hv' _ hq
        rw [hframe₂]
        refine frameAt_none_of_le (d := d + 2) ?_ (by omega)
        rw [frameAt, frameAt_congr_prefixAt (by omega) hq, htop (d + 1) le_rfl, Option.bind_some]
        simp [not_present_of_check hc _ (tableIndex_lt _ _)]
      obtain ⟨s', hs', htree', htot', hself', hother', hmem'⟩ := ih hpruned (by omega)
        (fun j hj => (hframe₂ v j).trans (htop j (by omega))) hempty₂
      refine ⟨s', by simp [hs₂, hs'], htree', htot'.trans htot₂, hself', fun v' hv' hne => ?_,
        fun g hg => ?_⟩
      · rw [hother' v' hv' hne, hframe₂, hother v' hv' hne]
      · rw [hmem' g fun j hj => hg j (by omega), hmem₂, hmem g hg]
    · exact ⟨s₁, by simp, htree, rfl, hself, hother, hmem⟩

namespace Tree

/-- `unmap` of a mapped page takes away that page only. -/
theorem unmap (h : Tree R pml4 s) (hv : v ∈ R) (hf : frameAt s pml4 v 4 = some f) :
    ∃ s', AddrSpace.unmap pml4 v s = some s' ∧ Rest R pml4 v s s' ∧
      frameAt s' pml4 v 4 = none := by
  have hres : resolve s pml4 v = some (chase s pml4 v) := by
    rw [resolve, if_pos]
    simp only [List.all_cons, List.all_nil, Bool.and_true, Bool.and_eq_true, decide_eq_true_eq]
    exact ⟨(h.used hv (by decide) (chase_eq hf (by decide))).1,
      (h.used hv (by decide) (chase_eq hf (by decide))).1,
      (h.used hv (by decide) (chase_eq hf (by decide))).1⟩
  obtain ⟨s₁, hs₁, hmem₁, htot₁, hpruned⟩ :=
    h.free hv (d := 3) (by decide) (chase_eq hf le_rfl)
  have hframe₁ : ∀ v' j, frameAt s₁ pml4 v' j = frameAt s pml4 v' j :=
    fun v' j => frameAt_congr_mem fun k _ u _ => congrFun hmem₁ u
  obtain ⟨s', hs', htree, htot, hself, hother, hmem⟩ := hpruned.clearFrom hv (by decide)
    (fun j hj => (hframe₁ v j).trans (chase_eq hf (by omega)))
    (fun v' _ hne hq => absurd (by simpa [prefixAt] using hq) hne)
  refine ⟨s', by simp [AddrSpace.unmap, hres, hs₁, hs'], ⟨htree, htot.trans htot₁, ?_⟩, hself⟩
  intro v' hv' hne
  rw [pageMem, pageMem, hother v' hv' hne, hframe₁]
  refine Option.map_congr fun g hg => ?_
  rw [hmem g fun j hj he => ?_, hmem₁]
  have := (h.unique hv' hv le_rfl (by omega) hg (he ▸ chase_eq hf (by omega))).1
  omega

theorem map (flags : MapFlags) (h : Tree R pml4 s) (hv : v ∈ R)
    (hun : frameAt s pml4 v 4 = none) :
    (∀ n s₁ s', s.alloc = some (n, s₁) → AddrSpace.map pml4 v n flags s₁ = some s' →
      Rest R pml4 v s s' ∧ frameAt s' pml4 v 4 = some n) ∧
    (4 ≤ s.pageMap.freeFrames → ∃ n s₁ s', s.alloc = some (n, s₁) ∧
      AddrSpace.map pml4 v n flags s₁ = some s' ∧
      s.pageMap.freeFrames ≤ s'.pageMap.freeFrames + 4) := by
  have hspec : ∀ n s₁, s.alloc = some (n, s₁) →
      Rest R pml4 v s s₁ ∧ Spare R pml4 n s₁ ∧ frameAt s₁ pml4 v 4 = none := by
    intro n s₁ ha
    obtain ⟨hrest, hspare, hframe⟩ := h.alloc (v := v) ha (s₁.mem n)
    have hsame : s₁.setFrame n (s₁.mem n) = s₁ := by simp [Vm.setFrame]
    rw [hsame] at hrest hspare hframe
    exact ⟨hrest, hspare, (hframe v hv 4 le_rfl).trans hun⟩
  constructor
  · intro n s₁ s' ha hm
    obtain ⟨hrest, hspare, hun₁⟩ := hspec n s₁ ha
    obtain ⟨hrest', hf⟩ := (hrest.tree.mapFrom flags hv (d := 0) rfl rfl hun₁ hspare).1 s' hm
    exact ⟨hrest.trans hrest', hf⟩
  · intro hle
    obtain ⟨n, m, hm⟩ := PageMap.exists_alloc (m := s.pageMap) (by omega)
    have ha : s.alloc = some (n, { s with pageMap := m }) := by rw [Vm.alloc, hm]; rfl
    have hcount := PageMap.freeFrames_alloc hm
    obtain ⟨hrest, hspare, hun₁⟩ := hspec n _ ha
    obtain ⟨s', hs', hle'⟩ := (hrest.tree.mapFrom flags hv (d := 0) rfl rfl hun₁
      hspare).2 (by change 3 ≤ m.freeFrames; omega)
    refine ⟨n, _, s', ha, hs', ?_⟩
    change m.freeFrames ≤ _ at hle'
    omega

theorem setPage (h : Tree R pml4 s) (hv : v ∈ R) (hf : frameAt s pml4 v 4 = some f)
    (words : ℕ → BitVec 64) :
    Rest R pml4 v s (s.setFrame f words) ∧ frameAt (s.setFrame f words) pml4 v 4 = some f := by
  have hne : ∀ v' ∈ R, ∀ d < 4, frameAt s pml4 v' d ≠ some f := by
    intro v' hv' d hd hf'
    have := (h.unique hv' hv (by omega) le_rfl hf' hf).1
    omega
  obtain ⟨htree, hframe⟩ : Tree R pml4 (s.setFrame f words) ∧ ∀ v ∈ R, ∀ d ≤ 4,
      frameAt (s.setFrame f words) pml4 v d = frameAt s pml4 v d := h.congr rfl (fun _ => id)
    fun v' hv' d hd g hg => Vm.mem_setFrame_of_ne fun he => hne v' hv' d hd (he ▸ hg)
  refine ⟨⟨htree, rfl, fun v' hv' hvv => ?_⟩, (hframe v hv 4 le_rfl).trans hf⟩
  rw [pageMem, pageMem, hframe v' hv' 4 le_rfl]
  refine Option.map_congr fun g hg => Vm.mem_setFrame_of_ne ?_
  rintro rfl
  exact hvv (by simpa [prefixAt] using (h.unique hv' hv le_rfl le_rfl hg hf).2)

end Tree

end AddrSpace

end Koerix
