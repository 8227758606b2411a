import Mathlib.Algebra.Group.Nat.Defs
import Mathlib.Data.List.Basic
import Mathlib.Data.Finset.Card
import Mathlib.Data.Finset.Range

/-! # Frame reference counters

`PageMap` keeps one 8-bit reference counter for each physical frame. A frame
is free when its counter is zero; `alloc` hands out the first free frame,
`addRef` and `free` move the counter up and down with a wrapping atomic add.
A failed assertion panics the kernel and is modelled as an undefined result.
-/

namespace Koerix

/-- The frame counters and the page statistics derived from them. -/
structure Counters where
  totalPages : ℕ
  usablePages : UInt64
  freePageCount : UInt64
  usedPages : UInt64
  pagemap : ℕ → UInt8

namespace Counters

/-- `atomic_add8` on the counter of `ppn`; the caller reads the old value itself. -/
def atomicAdd8 (c : Counters) (ppn : ℕ) (increment : UInt8) : Counters :=
  { c with pagemap := Function.update c.pagemap ppn (c.pagemap ppn + increment) }

def getRefs (c : Counters) (ppn : ℕ) : ℕ :=
  if c.totalPages ≤ ppn then 1 else (c.pagemap ppn).toNat

/-- Take the first frame whose counter is zero; running out of frames is an assertion failure. -/
def alloc (c : Counters) : Option (ℕ × Counters) :=
  ((List.range c.totalPages).find? fun i => c.pagemap i == 0).map fun i =>
    (i, { c.atomicAdd8 i 1 with
      freePageCount := c.freePageCount - 1
      usedPages := c.usedPages + 1 })

def addRef (c : Counters) (ppn : ℕ) : Counters :=
  if c.totalPages ≤ ppn then c
  else if c.pagemap ppn = 0 then
    { c.atomicAdd8 ppn 1 with
      freePageCount := c.freePageCount - 1
      usedPages := c.usedPages + 1 }
  else c.atomicAdd8 ppn 1

/-- Drop one reference; a counter that is already zero is a double free and panics. -/
def free (c : Counters) (ppn : ℕ) : Option Counters :=
  if c.totalPages ≤ ppn then some c
  else if c.pagemap ppn = 0 then none
  else if c.pagemap ppn = 1 then
    some { c.atomicAdd8 ppn (-1) with
      usedPages := c.usedPages - 1
      freePageCount := c.freePageCount + 1 }
  else some (c.atomicAdd8 ppn (-1))

/-- Number of frames that `alloc` can still hand out. -/
def freeFrames (c : Counters) : ℕ :=
  ((Finset.range c.totalPages).filter fun f => c.pagemap f = 0).card

end Counters

/-- A page map whose frame numbers fit the 28-bit `ppn` field of a paging table entry, through
which every frame is mapped. -/
structure PageMap extends Counters where
  fits : totalPages ≤ 2 ^ 28

namespace PageMap

/-- The members that are written after boot. -/
def store (m : PageMap) (c : Counters) : PageMap :=
  { m with freePageCount := c.freePageCount, usedPages := c.usedPages, pagemap := c.pagemap }

def atomicAdd8 (m : PageMap) (ppn : ℕ) (increment : UInt8) : PageMap :=
  m.store (m.toCounters.atomicAdd8 ppn increment)

def alloc (m : PageMap) : Option (ℕ × PageMap) :=
  m.toCounters.alloc.map fun (i, c) => (i, m.store c)

def addRef (m : PageMap) (ppn : ℕ) : PageMap := m.store (m.toCounters.addRef ppn)

def free (m : PageMap) (ppn : ℕ) : Option PageMap := (m.toCounters.free ppn).map m.store

variable {m m' m'' : PageMap} {ppn f : ℕ}

@[simp] theorem pagemap_atomicAdd8 (m : PageMap) (ppn : ℕ) (d : UInt8) :
    (m.atomicAdd8 ppn d).pagemap = Function.update m.pagemap ppn (m.pagemap ppn + d) := rfl

theorem alloc_eq (m : PageMap) : m.alloc =
    ((List.range m.totalPages).find? fun i => m.pagemap i == 0).map fun i =>
      (i, { m.atomicAdd8 i 1 with
        freePageCount := m.freePageCount - 1
        usedPages := m.usedPages + 1 }) := by
  simp only [alloc, Counters.alloc, Option.map_map]
  rfl

theorem addRef_eq (m : PageMap) (ppn : ℕ) : m.addRef ppn =
    if m.totalPages ≤ ppn then m
    else if m.pagemap ppn = 0 then
      { m.atomicAdd8 ppn 1 with
        freePageCount := m.freePageCount - 1
        usedPages := m.usedPages + 1 }
    else m.atomicAdd8 ppn 1 := by
  unfold addRef Counters.addRef
  split_ifs <;> rfl

theorem free_eq (m : PageMap) (ppn : ℕ) : m.free ppn =
    if m.totalPages ≤ ppn then some m
    else if m.pagemap ppn = 0 then none
    else if m.pagemap ppn = 1 then
      some { m.atomicAdd8 ppn (-1) with
        usedPages := m.usedPages - 1
        freePageCount := m.freePageCount + 1 }
    else some (m.atomicAdd8 ppn (-1)) := by
  unfold free Counters.free
  split_ifs <;> rfl

theorem alloc_eq_some (h : m.alloc = some (f, m')) :
    f < m.totalPages ∧ m.pagemap f = 0 ∧ m'.totalPages = m.totalPages ∧
      m'.pagemap = Function.update m.pagemap f 1 := by
  simp only [alloc_eq, Option.map_eq_some_iff, Prod.mk.injEq] at h
  obtain ⟨i, hi, rfl, rfl⟩ := h
  have hmem := List.mem_of_find?_eq_some hi
  have hz : m.pagemap i = 0 := by simpa using List.find?_some hi
  exact ⟨List.mem_range.mp hmem, hz, rfl, by simp [hz]⟩

theorem freeFrames_alloc (h : m.alloc = some (f, m')) : m'.freeFrames + 1 = m.freeFrames := by
  obtain ⟨hf, hz, ht, hp⟩ := alloc_eq_some h
  have herase : (Finset.range m'.totalPages).filter (fun g => m'.pagemap g = 0) =
      ((Finset.range m.totalPages).filter fun g => m.pagemap g = 0).erase f := by
    ext g
    simp only [Finset.mem_filter, Finset.mem_range, Finset.mem_erase, ht, hp]
    rcases eq_or_ne g f with rfl | hne
    · simp
    · simp [hne]
  rw [Counters.freeFrames, Counters.freeFrames, herase]
  exact Finset.card_erase_add_one (by simp [hf, hz])

theorem alloc_isSome_iff : m.alloc.isSome ↔ ∃ f < m.totalPages, m.pagemap f = 0 := by
  simp [alloc_eq, List.find?_isSome]

theorem exists_alloc (h : 0 < m.freeFrames) : ∃ f m', m.alloc = some (f, m') := by
  obtain ⟨f, hf⟩ := Finset.card_pos.mp h
  simp only [Finset.mem_filter, Finset.mem_range] at hf
  obtain ⟨⟨g, m'⟩, hg⟩ := Option.isSome_iff_exists.mp (alloc_isSome_iff.mpr ⟨f, hf⟩)
  exact ⟨g, m', hg⟩

@[simp] theorem addRef_totalPages : (m.addRef ppn).totalPages = m.totalPages := by
  rw [addRef_eq]; split_ifs <;> rfl

theorem addRef_pagemap (h : ppn < m.totalPages) :
    (m.addRef ppn).pagemap = Function.update m.pagemap ppn (m.pagemap ppn + 1) := by
  rw [addRef_eq, if_neg (by omega)]
  split_ifs <;> rfl

theorem addRef_of_le (h : m.totalPages ≤ ppn) : m.addRef ppn = m := by
  simp [addRef_eq, h]

theorem free_eq_some (h : m.free ppn = some m') (hp : ppn < m.totalPages) :
    m.pagemap ppn ≠ 0 ∧ m'.totalPages = m.totalPages ∧
      m'.pagemap = Function.update m.pagemap ppn (m.pagemap ppn - 1) := by
  rw [free_eq, if_neg (by omega)] at h
  split_ifs at h with h₀ h₁ <;> cases h <;>
    exact ⟨h₀, rfl, by simp [UInt8.sub_eq_add_neg]⟩

theorem free_totalPages (h : m.free ppn = some m') : m'.totalPages = m.totalPages := by
  rw [free_eq] at h
  split_ifs at h <;> cases h <;> rfl

theorem free_eq_none_iff : m.free ppn = none ↔ ppn < m.totalPages ∧ m.pagemap ppn = 0 := by
  rw [free_eq]
  split_ifs <;> simp_all

theorem free_of_pos (h : ppn < m.totalPages → m.pagemap ppn ≠ 0) : ∃ m', m.free ppn = some m' := by
  refine Option.ne_none_iff_exists'.mp fun hn => ?_
  obtain ⟨hlt, hz⟩ := free_eq_none_iff.mp hn
  exact h hlt hz

theorem free_of_le (h : m.totalPages ≤ ppn) : m.free ppn = some m := by
  simp [free_eq, h]

/-- Freeing a list of frames that have enough references takes these references away. -/
theorem foldlM_free {frames : List ℕ}
    (h : ∀ f < m.totalPages, frames.count f ≤ (m.pagemap f).toNat) :
    ∃ m', frames.foldlM free m = some m' ∧ m'.totalPages = m.totalPages ∧
      ∀ f < m.totalPages, (m'.pagemap f).toNat = (m.pagemap f).toNat - frames.count f := by
  induction frames generalizing m with
  | nil => exact ⟨m, rfl, rfl, fun f _ => by simp⟩
  | cons ppn frames ih =>
    obtain ⟨m₁, hm₁⟩ : ∃ m₁, m.free ppn = some m₁ := by
      refine free_of_pos fun hlt hz => ?_
      have := h ppn hlt
      rw [List.count_cons_self, hz] at this
      simp at this
    have ht := free_totalPages hm₁
    have hstep : ∀ f < m.totalPages,
        (m₁.pagemap f).toNat + (if ppn = f then 1 else 0) = (m.pagemap f).toNat := by
      intro f hf
      rcases Nat.lt_or_ge ppn m.totalPages with hlt | hge
      · obtain ⟨hnz, -, hp⟩ := free_eq_some hm₁ hlt
        rw [hp]
        split_ifs with he
        · subst he
          have hpos : 1 ≤ (m.pagemap ppn).toNat := by
            refine Nat.pos_of_ne_zero fun hz => hnz (UInt8.toNat_inj.mp hz)
          rw [Function.update_self, UInt8.toNat_sub_of_le _ _ (by simpa [UInt8.le_iff_toNat_le])]
          exact Nat.sub_add_cancel hpos
        · rw [Function.update_of_ne (Ne.symm he), Nat.add_zero]
      · rw [free_of_le hge] at hm₁
        cases hm₁
        rw [if_neg (by omega), Nat.add_zero]
    have hcount : ∀ f, (ppn :: frames).count f = frames.count f + if ppn = f then 1 else 0 := by
      intro f
      rw [List.count_cons]
      simp
    obtain ⟨m', hm', ht', hp'⟩ := ih (m := m₁) fun f hf => by
      have h₁ := hstep f (ht ▸ hf)
      have h₂ := h f (ht ▸ hf)
      rw [hcount] at h₂
      omega
    refine ⟨m', by simp [hm₁, hm'], ht'.trans ht, fun f hf => ?_⟩
    rw [hp' f (ht ▸ hf), hcount]
    have := hstep f hf
    omega

theorem freeFrames_free (h : m.free ppn = some m') (hp : ppn < m.totalPages) :
    m'.freeFrames = m.freeFrames + if m.pagemap ppn = 1 then 1 else 0 := by
  obtain ⟨hz, ht, hmap⟩ := free_eq_some h hp
  have hzero : m.pagemap ppn - 1 = 0 ↔ m.pagemap ppn = 1 := by
    grind
  have hmem : ppn ∉ (Finset.range m.totalPages).filter fun g => m.pagemap g = 0 := by
    simp [hz]
  rw [Counters.freeFrames, Counters.freeFrames, ht]
  split_ifs with h1
  · rw [← Finset.card_insert_of_notMem hmem]
    congr 1
    ext g
    simp only [Finset.mem_filter, Finset.mem_range, Finset.mem_insert, hmap]
    rcases eq_or_ne g ppn with rfl | hne
    · simp [hp, h1]
    · simp [hne]
  · rw [Nat.add_zero]
    congr 1
    ext g
    simp only [Finset.mem_filter, Finset.mem_range, hmap]
    rcases eq_or_ne g ppn with rfl | hne
    · simp [hzero, h1, hz]
    · simp [hne]

/-- The statistics of a page map have moved along with its counters. -/
structure Steady (m m' : PageMap) : Prop where
  total : m'.totalPages = m.totalPages
  usable : m'.usablePages = m.usablePages
  sum : m'.freePageCount + m'.usedPages = m.freePageCount + m.usedPages
  free : m'.freePageCount + .ofNat m.freeFrames = m.freePageCount + .ofNat m'.freeFrames

namespace Steady

theorem refl (m : PageMap) : Steady m m := ⟨rfl, rfl, rfl, rfl⟩

theorem trans (h : Steady m m') (h' : Steady m' m'') : Steady m m'' where
  total := h'.total.trans h.total
  usable := h'.usable.trans h.usable
  sum := h'.sum.trans h.sum
  free := by
    have := h.free
    have := h'.free
    grind

theorem of_alloc (h : m.alloc = some (f, m')) : Steady m m' := by
  have hcount := freeFrames_alloc h
  simp only [alloc_eq, Option.map_eq_some_iff, Prod.mk.injEq] at h
  obtain ⟨i, -, rfl, rfl⟩ := h
  refine ⟨rfl, rfl, ?_, ?_⟩
  · change m.freePageCount - 1 + (m.usedPages + 1) = _
    grind
  · rw [← hcount, UInt64.ofNat_add]
    simp only [atomicAdd8, UInt64.reduceOfNat]
    grind

theorem of_free (h : m.free ppn = some m') : Steady m m' := by
  rcases Nat.lt_or_ge ppn m.totalPages with hp | hge
  · have hcount := freeFrames_free h hp
    rw [free_eq, if_neg (by omega)] at h
    split_ifs at h with h₀ h₁ <;> cases h
    · rw [if_pos h₁] at hcount
      refine ⟨rfl, rfl, ?_, ?_⟩
      · change m.freePageCount + 1 + (m.usedPages - 1) = _
        grind
      · rw [hcount, UInt64.ofNat_add]
        simp only [UInt64.reduceOfNat]
        grind
    · rw [if_neg h₁, Nat.add_zero] at hcount
      exact ⟨rfl, rfl, rfl, by rw [hcount]; rfl⟩
  · rw [free_of_le hge] at h
    cases h
    exact refl m

theorem eq_of_pagemap (h : Steady m m') (hp : m'.pagemap = m.pagemap) : m' = m := by
  have hfree : m'.freeFrames = m.freeFrames := by
    rw [Counters.freeFrames, Counters.freeFrames, h.total, hp]
  have hcount := h.free
  rw [hfree, UInt64.add_left_inj] at hcount
  have hsum := h.sum
  rw [hcount, UInt64.add_right_inj] at hsum
  obtain ⟨ht, hu, -, -⟩ := h
  rcases m with ⟨⟨⟩, _⟩
  rcases m' with ⟨⟨⟩, _⟩
  simp_all

end Steady
end PageMap

end Koerix
