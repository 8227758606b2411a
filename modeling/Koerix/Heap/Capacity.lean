import Koerix.Heap.Alloc
import Mathlib.Algebra.BigOperators.Group.Finset.Sigma
import Mathlib.Order.Interval.Finset.Nat

/-! # The size of the heap region

The pages of the heap region and their tables are more frames than fit the
28 bits of an entry. A break beyond the region is therefore never reached: `kbrk`
runs out of frames first. A break that wraps around is taken for a smaller one,
and `kbrk` unmaps the page in which `kmalloc` then writes the header.
-/

namespace Koerix

open AddrSpace ByteMemory

namespace Heap

variable {h h' : Heap} {v : View} {bs : List Block} {pml4 d q inc o : ℕ} {s : Vm}

/-- The tables and pages of the region, by depth and prefix. -/
def regionNodes : Finset (Σ _ : ℕ, ℕ) := (Finset.range 5).sigma fun d =>
  Finset.Icc (prefixAt d (kheapStart / 4096)) (prefixAt d (kheapEnd / 4096))

theorem card_regionNodes : regionNodes.card = 2 ^ 28 + 1 := by
  simp [regionNodes, Finset.sum_range_succ, prefixAt, kheapStart, kheapEnd]

theorem exists_page_of_regionNode (hm : ⟨d, q⟩ ∈ regionNodes) :
    d ≤ 4 ∧ ∃ page ∈ heapPages, prefixAt d page = q := by
  simp only [regionNodes, Finset.mem_sigma, Finset.mem_range, Finset.mem_Icc] at hm
  obtain ⟨hd, hlo, hhi⟩ := hm
  refine ⟨by omega, max (kheapStart / 4096) (pageAt d q), ?_, ?_⟩ <;>
    simp only [mem_heapPages_iff, prefixAt, pageAt, kheapStart, kheapEnd] at *
  all_goals
    interval_cases d <;> norm_num at * <;> omega

/-- There are not enough frames to map the whole region. -/
theorem exists_unmapped (h : Tree heapPages pml4 s) :
    ∃ page ∈ heapPages, frameAt s pml4 page 4 = none := by
  by_contra hall
  have hmapped : ∀ x : Σ _ : ℕ, ℕ, x ∈ regionNodes → x.1 ≤ 4 ∧ ∃ page ∈ heapPages,
      prefixAt x.1 page = x.2 ∧ ∃ f, frameAt s pml4 page x.1 = some f := by
    rintro ⟨d, q⟩ hx
    obtain ⟨hd, page, hpage, hq⟩ := exists_page_of_regionNode hx
    obtain ⟨f, hf⟩ := Option.ne_none_iff_exists'.mp fun hn => hall ⟨page, hpage, hn⟩
    exact ⟨hd, page, hpage, hq, exists_frameAt_of_le hf hd⟩
  choose! hdepth page hpage hprefix frame hframe using hmapped
  have hcard := Finset.card_le_card_of_injOn (s := regionNodes)
    (t := Finset.range s.pageMap.totalPages) frame
    (fun x hx => Finset.mem_coe.mpr (Finset.mem_range.mpr
      (h.used (hpage x hx) (hdepth x hx) (hframe x hx)).1)) ?_
  · rw [card_regionNodes, Finset.card_range] at hcard
    have := s.pageMap.fits
    omega
  · rintro ⟨d, q⟩ hx ⟨d', q'⟩ hx' he
    obtain ⟨hd, hq⟩ := h.unique (hpage _ hx) (hpage _ hx') (hdepth _ hx) (hdepth _ hx')
      (hframe _ hx) (he ▸ hframe _ hx')
    have hq₁ := hprefix _ hx
    have hq₂ := hprefix _ hx'
    dsimp only at hd hq hq₁ hq₂
    subst hd
    rw [hq, hq₂] at hq₁
    rw [hq₁]

/-- A break beyond the region takes more frames than there are. -/
theorem kbrk_beyond (hs : Shows h.pml4 h.vm v) (he : Exact v h.kheapBreak)
    (hlo : kheapStart ≤ h.kheapBreak) (hout : kheapEnd + 1 < h.kheapBreak + inc)
    (hwrap : h.kheapBreak + inc < 2 ^ 64) : h.kbrk inc = none := by
  have hmod : (h.kheapBreak + inc) % 2 ^ 64 = h.kheapBreak + inc := Nat.mod_eq_of_lt hwrap
  have hlast : (h.kheapBreak + inc + 2 ^ 64 - 1) % 2 ^ 64 = h.kheapBreak + inc - 1 := by omega
  set q := h.kheapBreak / 4096 + if h.kheapBreak % 4096 ≠ 0 then 1 else 0 with hq
  set m := (h.kheapBreak + inc - 1) / 4096 + 1 - q with hm
  set n := (kheapEnd + 1) / 4096 - q with hn
  have hceil : h.kheapBreak ≤ 4096 * q ∧ 4096 * q < h.kheapBreak + 4096 := by
    rw [hq]
    split_ifs <;> omega
  have hend : 4096 ∣ kheapEnd + 1 := by decide
  have hpages : ∀ r, q ≤ r → r < q + n → r ∈ heapPages ∧ v (4096 * r) = none := by
    intro r hr hr'
    refine ⟨mem_heapPages_iff.mpr ⟨by omega, by omega⟩, by_contra fun hc => ?_⟩
    have := ((he _).mp hc).2
    omega
  -- the pages that are left in the region come first, and they do not all get a frame
  have hnone : (List.range' q n).foldlM mapPage { h with kheapBreak := h.kheapBreak + inc } =
      none := by
    rw [Option.eq_none_iff_forall_ne_some]
    intro h' hh'
    obtain ⟨-, -, v', hs', hkeep, hmap⟩ :=
      (mapPages_spec (h := { h with kheapBreak := h.kheapBreak + inc }) hs hpages).1 h' hh'
    obtain ⟨page, hpage, hun⟩ := exists_unmapped hs'.tree
    rw [hs'.frame_none_iff hpage] at hun
    rw [mem_heapPages_iff] at hpage
    by_cases hin : q ≤ page
    · exact hmap (4096 * page) (by omega) (by omega) hun
    · rw [hkeep (4096 * page) (by omega)] at hun
      exact (he (4096 * page)).mpr ⟨hpage.1, by omega⟩ hun
  have hsplit : List.range' q m = List.range' q n ++ List.range' (q + n) (m - n) := by
    rw [show m = n + (m - n) by omega, ← List.range'_append_1]
    simp
  simp only [kbrk, hmod, hlast, if_neg (show ¬ h.kheapBreak + inc < h.kheapBreak by omega)]
  rw [← hq, ← hm, hsplit, List.foldlM_append, hnone]
  rfl

/-- A break that wraps around leaves the page of the old break unmapped. -/
theorem kbrk_wrap (hlo : kheapStart ≤ h.kheapBreak) (hhi : h.kheapBreak ≤ kheapEnd + 1)
    (hwrap : 2 ^ 64 ≤ h.kheapBreak + inc) (hinc : inc < 2 ^ 63)
    (hk : h.kbrk inc = some (o, h')) :
    o = h.kheapBreak ∧ frameAt h'.vm h'.pml4 (h.kheapBreak / 4096) 4 = none := by
  set brk := (h.kheapBreak + inc) % 2 ^ 64 with hbrk
  set q := brk / 4096 + if brk % 4096 ≠ 0 then 1 else 0 with hq
  have hfar : brk + 2 ^ 63 < h.kheapBreak := by
    simp only [kheapEnd] at hhi
    omega
  have hceil : 4096 * q < brk + 4096 := by
    rw [hq]
    split_ifs <;> omega
  have hm : h.kheapBreak / 4096 + 1 - q = (h.kheapBreak / 4096 - q) + 1 := by omega
  have hlast : q + (h.kheapBreak / 4096 - q) = h.kheapBreak / 4096 := by omega
  simp only [kbrk, ← hbrk, if_pos (show brk < h.kheapBreak by omega), ← hq, hm,
    List.range'_1_concat, hlast, List.foldlM_append, List.foldlM_cons, List.foldlM_nil,
    Option.bind_eq_bind, Option.bind_eq_some_iff, Option.pure_def, Option.some.injEq,
    Prod.mk.injEq] at hk
  obtain ⟨h₁, ⟨h₂, -, h₃, hu, rfl⟩, rfl, rfl⟩ := hk
  obtain ⟨vm, hvm, rfl⟩ := by
    simpa only [unmapPage, Option.bind_eq_bind, Option.bind_eq_some_iff, Option.pure_def,
      Option.some.injEq] using hu
  exact ⟨rfl, frameAt_unmap_self hvm⟩

theorem append_none {blk size line function : ℕ}
    (hf : frameAt h.vm h.pml4 (blk / 4096) 4 = none) : h.append blk size line function = none := by
  have hset : h.set blk .available 0 = none := by
    simp [set, Field.offset, Field.length, store, storeByte, hf]
  rw [append, hset]
  rfl

/-- `kmalloc` only returns if the break stays in the heap region. -/
theorem room_of_kmalloc {size line function : ℕ} {r : ℕ × Heap} (hr : Repr h v bs)
    (hsize : size + headerSize < 2 ^ 63) (hm : h.kmalloc size line function = some r) :
    h.Room size := by
  intro hfit
  by_contra hroom
  have hmod : (size + headerSize) % 2 ^ 64 = size + headerSize := Nat.mod_eq_of_lt (by omega)
  have hlo : kheapStart ≤ h.kheapBreak := hr.brk ▸ Nat.le_add_right _ _
  have hext : h.extend size line function = some r := by
    rwa [kmalloc, hfit] at hm
  rw [extend, hmod] at hext
  obtain ⟨⟨o, h₁⟩, hk, hext⟩ := Option.bind_eq_some_iff.mp hext
  rcases Nat.lt_or_ge (h.kheapBreak + (size + headerSize)) (2 ^ 64) with hlt | hge
  · rw [kbrk_beyond hr.shows hr.exact hlo (by omega) hlt] at hk
    cases hk
  · obtain ⟨rfl, hun⟩ := kbrk_wrap hlo hr.limit hge hsize hk
    dsimp only at hext
    rw [append_none hun, if_neg] at hext
    · cases hext
    · have hlim := hr.limit
      simp only [kheapEnd] at hlim
      omega

end Heap

end Koerix
