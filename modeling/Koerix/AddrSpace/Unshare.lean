import Koerix.AddrSpace.Copy
import Koerix.AddrSpace.View

/-! # Unsharing one entry

The step that `triggerCow` repeats: give an entry its own copy of a frame that
others use too, or restore its write permission when it is the only user. The
step keeps the shape and what every address space shows, and leaves the entry
writable.
-/

namespace Koerix

open GenericPagingTable InDegree

namespace AddrSpace

variable {s s' : Vm} {live : List ℕ} {pos pos' : Positions} {held base base' : ℕ → ℕ}
  {f t i d q n c r k virt level : ℕ} {e : GenericPagingTable}

/-- The entry `t[i]` at depth `d` has been moved from the frame `c` to its copy `n`. -/
structure Moved (s s' : Vm) (t i c n d : ℕ) : Prop where
  entry : s'.entry t i = relink (s.entry t i) n
  row : ∀ j, j ≠ i → s'.entry t j = s.entry t j
  old : d < 3 → ∀ j < 512, s'.entry c j =
    if present (s.entry c j) = true then keep (s.entry c j) else s.entry c j
  other : ∀ g, g ≠ t → g ≠ n → (g = c → d = 3) → s'.mem g = s.mem g
  copy : CopyOf s s' d c n

/-- The tables have been rearranged, and show what they showed before. -/
structure Reshaped (s s' : Vm) (pos pos' : Positions) : Prop where
  mono : ∀ f p, pos f = some p → pos' f = some p
  alike : ∀ f d q, pos f = some (d, q) → d < 4 → Alike s s' (4 - d) f f
  total : s'.pageMap.totalPages = s.pageMap.totalPages
  kernel : s'.kernelPml4 = s.kernelPml4

/-- The entry `t[i]` at depth `d` may be written, and nothing has changed above it. -/
structure Claimed (s s' : Vm) (pos pos' : Positions) (t i d : ℕ) : Prop
    extends Reshaped s s' pos pos' where
  present_eq : present (s'.entry t i) = true
  write_eq : write (s'.entry t i) = true
  above : ∀ u j d' q', Slot pos u j d' q' → d' ≤ d → u ≠ t ∨ j ≠ i → s'.entry u j = s.entry u j

theorem sameBits_keep (e : GenericPagingTable) : SameBits e (keep e) where
  present_eq := present_keep e
  writable_eq _ := writable_keep e
  user_eq _ := user_keep e
  noExec_eq _ := noExec_keep e
  cacheDisable_eq _ := cacheDisable_keep e
  shared_eq _ := shared_keep e

theorem CopiedUpTo.tableCopy (h : CopiedUpTo s s' c n k) : TableCopy s s' k c n := by
  intro j hj
  obtain ⟨hp, hk⟩ := h.new j hj
  rcases hpres : present (s.entry c j) with _ | _
  · exact ⟨sameBits_of_not_present hpres (hp.trans hpres), fun hf => by cases hf⟩
  · rw [hk hpres]
    exact ⟨sameBits_keep _, fun _ => ppn_keep _⟩

theorem CopiedUpTo.sameBits_old (h : CopiedUpTo s s' c n k) (j : ℕ) :
    SameBits (s.entry c j) (s'.entry c j) ∧ ppn (s'.entry c j) = ppn (s.entry c j) := by
  rw [h.old j]
  split_ifs
  · exact ⟨sameBits_keep _, ppn_keep _⟩
  · exact ⟨.refl _, rfl⟩

theorem sameBits_relink (h : writable e = true) : SameBits e (relink e n) where
  present_eq := present_relink e n
  writable_eq _ := by simp [writable, ← h]
  user_eq _ := user_relink e n
  noExec_eq _ := noExec_relink e n
  cacheDisable_eq _ := cacheDisable_relink e n
  shared_eq _ := shared_relink e n

theorem sameBits_setWrite (h : writable e = true) : SameBits e (setWrite e true) where
  present_eq := present_setWrite e true
  writable_eq _ := by simp [writable, ← h]
  user_eq _ := user_setWrite e true
  noExec_eq _ := noExec_setWrite e true
  cacheDisable_eq _ := cacheDisable_setWrite e true
  shared_eq _ := shared_setWrite e true

theorem Shape.page_ne_table (h : Shape s live pos held) (hs : Slot pos t i 3 q)
    (hp : present (s.entry t i) = true) {u d' q' : ℕ} (hu : pos u = some (d', q')) (hd : d' < 4) :
    ppn (s.entry t i) ≠ u := by
  rintro rfl
  have hok := h.entries hs hp
  have hlt := (h.bounded hu).1
  rcases hsh : shared (s.entry t i) with _ | _
  · rw [hok.child hsh hlt] at hu
    cases hu
    omega
  · rw [(hok.device hsh hlt).1] at hu
    cases hu

/-- Moving an entry to a copy claims it. -/
theorem Moved.claimed (hm : Moved s s' t i (ppn (s.entry t i)) n d) (h : Shape s live pos held)
    (hs : Slot pos t i d q) (hp : present (s.entry t i) = true)
    (hw : writable (s.entry t i) = true) (hn : n < s.pageMap.totalPages) (hpos : pos n = none)
    (hvac : Vacant s pos n)
    (hmono : ∀ f p, pos f = some p → pos' f = some p)
    (htotal : s'.pageMap.totalPages = s.pageMap.totalPages)
    (hkernel : s'.kernelPml4 = s.kernelPml4) : Claimed s s' pos pos' t i d := by
  set c := ppn (s.entry t i) with hc
  have hppn : ppn (s'.entry t i) = n := by
    rw [hm.entry, ppn_relink, Nat.mod_eq_of_lt (lt_of_lt_of_le hn s.pageMap.fits)]
  have hne : ∀ {u j d' q'}, Slot pos u j d' q' → u ≠ n := by
    rintro u j d' q' hu rfl
    simpa [hpos] using hu.pos_eq
  -- below the payload level the frame that is left behind is a table
  have hcpos : d < 3 → pos c = some (d + 1, 512 * q + i) := by
    intro h3
    have hok := h.entries hs hp
    obtain ⟨hlt, hsh, -⟩ := hok.upper h3
    exact hok.child hsh hlt
  have hentry : ∀ {u j d' q'}, Slot pos u j d' q' → u ≠ t ∨ j ≠ i →
      s'.entry u j = s.entry u j ∨ u = c ∧ d < 3 ∧ s'.entry u j = keep (s.entry u j) := by
    intro u j d' q' hu huj
    rcases eq_or_ne u t with rfl | hut
    · exact Or.inl (hm.row j (by tauto))
    · by_cases huc : u = c ∧ d < 3
      · obtain ⟨rfl, h3⟩ := huc
        rw [hm.old h3 j (lt_of_lt_of_le hu.index (entryCount_le _))]
        split_ifs
        · exact Or.inr ⟨rfl, h3, rfl⟩
        · exact Or.inl rfl
      · refine Or.inl (Vm.entry_congr (hm.other u hut (hne hu) fun huc' => ?_))
        have := hs.depth
        by_contra h3
        exact huc ⟨huc', by omega⟩
  refine {
    mono := hmono
    alike := ?_
    total := htotal
    kernel := hkernel
    present_eq := by rw [hm.entry, present_relink, hp]
    write_eq := by rw [hm.entry, write_relink]
    above := ?_ }
  · intro f d' q' hf hd'
    refine h.alike htotal ?_ ?_ ?_ (by omega) hd' hf (Or.inl rfl)
    · intro u j d'' q'' hu
      by_cases huj : u = t ∧ j = i
      · obtain ⟨rfl, rfl⟩ := huj
        rw [hm.entry]
        exact sameBits_relink hw
      · rcases hentry hu (by tauto) with he | ⟨-, -, he⟩
        · rw [he]
        · rw [he]
          exact sameBits_keep _
    · intro u j d'' q'' hu hpu
      by_cases huj : u = t ∧ j = i
      · obtain ⟨rfl, rfl⟩ := huj
        obtain ⟨rfl, rfl⟩ := hs.unique hu
        rw [hppn]
        exact Or.inr hm.copy
      · rcases hentry hu (by tauto) with he | ⟨-, -, he⟩
        · exact Or.inl (by rw [he])
        · exact Or.inl (by rw [he, ppn_keep])
    · intro u j q'' hu hpu
      have ht : ppn (s.entry u j) ≠ t := h.page_ne_table hu hpu hs.pos_eq hs.depth
      refine hm.other _ ht (hvac u j 3 q'' hu hpu) fun hgc => ?_
      have := hs.depth
      by_contra h3
      exact h.page_ne_table hu hpu (hcpos (by omega)) (by omega) hgc
  · intro u j d' q' hu hd' huj
    rcases hentry hu huj with he | ⟨rfl, h3, -⟩
    · exact he
    · have := hu.pos_eq.symm.trans (hcpos h3)
      simp only [Option.some.injEq, Prod.mk.injEq] at this
      omega

/-- What a copy of `c` in `n` does to its only user, the entry `t[i]`. -/
theorem moved_of_free {s₂ s₃ : Vm}
    (hc : ppn (s.entry t i) < s₂.pageMap.totalPages)
    (htc : t = ppn (s.entry t i) → d = 3) (hnt : n ≠ t)
    (hother : ∀ g, g ≠ n → (g = ppn (s.entry t i) → d = 3) → s₂.mem g = s.mem g)
    (hold : d < 3 → ∀ j < 512, s₂.entry (ppn (s.entry t i)) j =
      if present (s.entry (ppn (s.entry t i)) j) = true then
        keep (s.entry (ppn (s.entry t i)) j) else s.entry (ppn (s.entry t i)) j)
    (hcopy : CopyOf s s₂ d (ppn (s.entry t i)) n)
    (hfree : s₂.free (ppn (s₂.entry t i)) = some s₃) :
    Moved s (s₃.setEntry t i (relink (s₃.entry t i) n)) t i (ppn (s.entry t i)) n d := by
  have he₂ : ∀ j, s₂.entry t j = s.entry t j := fun j => Vm.entry_congr (hother t hnt.symm htc)
  rw [he₂] at hfree
  obtain ⟨hmem₃, -, -, ht₃, -⟩ := Vm.free_eq_some hfree hc
  have he₃ : ∀ u j, s₃.entry u j = s₂.entry u j := fun u _ => Vm.entry_congr (congrFun hmem₃ u)
  rw [he₃, he₂]
  constructor
  case entry => exact Vm.entry_setEntry_self
  case row =>
    intro j hj
    rw [Vm.entry_setEntry_of_ne (Or.inr hj), he₃, he₂]
  case old =>
    intro hd j hj
    have htc' : ppn (s.entry t i) ≠ t := by
      intro hct
      have := htc hct.symm
      omega
    rw [Vm.entry_setEntry_of_ne (Or.inl htc'), he₃, hold hd j hj]
  case other =>
    intro g hgt hgn hgc
    rw [Vm.mem_setEntry_of_ne hgt, hmem₃, hother g hgn hgc]
  case copy =>
    refine ⟨fun hd => ?_, fun hd j hj => ?_⟩
    · rw [Vm.mem_setEntry_of_ne hnt, hmem₃, Vm.pageMap_setEntry, ht₃]
      exact hcopy.page hd
    · rw [Vm.entry_setEntry_of_ne (Or.inl hnt), he₃]
      exact hcopy.table hd j hj

theorem unshare_eq_some (h : unshare level t i s = some s') : ∃ n s₁ s₂ s₃,
    s.alloc = some (n, s₁) ∧
    s₂ = (if level = 0 then s₁.setFrame n (s₁.mem (ppn (s.entry t i)))
      else (List.range 512).foldl (copyEntry (ppn (s.entry t i)) n) s₁) ∧
    s₂.free (ppn (s₂.entry t i)) = some s₃ ∧
    s' = s₃.setEntry t i (relink (s₃.entry t i) n) := by
  simp only [unshare, Option.bind_eq_bind, Option.bind_eq_some_iff, Option.pure_def,
    Option.some.injEq, Prod.exists] at h
  obtain ⟨n, s₁, ha, s₃, hf, rfl⟩ := h
  exact ⟨n, s₁, _, s₃, ha, rfl, hf, rfl⟩

theorem foldl_copyEntry_frame (s : Vm) (c n : ℕ) (is : List ℕ) :
    (is.foldl (copyEntry c n) s).pageMap.totalPages = s.pageMap.totalPages ∧
      (is.foldl (copyEntry c n) s).kernelPml4 = s.kernelPml4 := by
  induction is generalizing s with
  | nil => exact ⟨rfl, rfl⟩
  | cons i is ih =>
    have hstep : (copyEntry c n s i).pageMap.totalPages = s.pageMap.totalPages ∧
        (copyEntry c n s i).kernelPml4 = s.kernelPml4 := by
      unfold copyEntry
      split_ifs <;> exact ⟨by simp, rfl⟩
    exact ⟨(ih _).1.trans hstep.1, (ih _).2.trans hstep.2⟩

theorem unshare_frame (h : unshare level t i s = some s') :
    s'.pageMap.totalPages = s.pageMap.totalPages ∧ s'.kernelPml4 = s.kernelPml4 := by
  obtain ⟨n, s₁, s₂, s₃, ha, hs₂, hfree, rfl⟩ := unshare_eq_some h
  obtain ⟨-, hk, -, -, ht, -⟩ := Vm.alloc_eq_some ha
  obtain ⟨-, hk₃, ht₃⟩ := Vm.free_frame hfree
  have h₂ : s₂.pageMap.totalPages = s₁.pageMap.totalPages ∧ s₂.kernelPml4 = s₁.kernelPml4 := by
    rw [hs₂]
    split_ifs
    · exact ⟨rfl, rfl⟩
    · exact foldl_copyEntry_frame s₁ _ n _
  exact ⟨(ht₃.trans h₂.1).trans ht, (hk₃.trans h₂.2).trans hk⟩

namespace Settled

variable {s₁ s₂ s₃ : Vm}

/-- Unsharing a table. -/
theorem unshareTable (h : Settled base s live pos) (hs : Slot pos t i d q) (hd : d < 3)
    (hp : present (s.entry t i) = true)
    (hrefs : 2 ≤ count s pos (restHeld base live) (ppn (s.entry t i)))
    (ha : s.alloc = some (n, s₁))
    (hs₂ : s₂ = (List.range 512).foldl (copyEntry (ppn (s.entry t i)) n) s₁)
    (hfree : s₂.free (ppn (s₂.entry t i)) = some s₃) :
    Settled base (s₃.setEntry t i (GenericPagingTable.relink (s₃.entry t i) n)) live
        (Function.update pos n (some (d + 1, 512 * q + i))) ∧
      Moved s (s₃.setEntry t i (GenericPagingTable.relink (s₃.entry t i) n)) t i
        (ppn (s.entry t i)) n d := by
  obtain ⟨hpos, hb, hvac, h₁⟩ := h.alloc ha
  obtain ⟨hmem, -, hn, -, ht, -⟩ := Vm.alloc_eq_some ha
  have hok := h.entries hs hp
  obtain ⟨hlt, hsh, -⟩ := hok.upper hd
  have hc := hok.child hsh hlt
  have hent₁ : ∀ u j, s₁.entry u j = s.entry u j := fun u _ => Vm.entry_congr (congrFun hmem u)
  have hn₁ : n < s₁.pageMap.totalPages := ht ▸ hn
  have hnt : n ≠ t := by rintro rfl; simpa [hpos] using hs.pos_eq
  have hcn : ppn (s.entry t i) ≠ n := by intro he; simp [he, hpos] at hc
  have htc : t ≠ ppn (s.entry t i) := by
    intro he
    rw [← he, hs.pos_eq] at hc
    simp at hc
  have hcopy : CopiedUpTo s₁ s₂ (ppn (s.entry t i)) n (entryCount (3 - (d + 1))) := by
    rw [hs₂, entryCount, if_neg (by omega)]
    exact copiedUpTo_foldl_copyEntry s₁ hcn 512
  have hent₂ : s₂.entry t i = s.entry t i := by
    rw [Vm.entry_congr (hcopy.other t htc hnt.symm), hent₁]
  have hdup := h₁.duplicate live hc (by omega) hn₁ hpos hvac h₁.held_fresh.symm.le hcopy
    (by simp)
  have hcount := fun f => hcopy.count_eq (q := 512 * q + i)
    (restHeld (Function.update base n 1) live) (by omega) hn₁ hpos f
  have hcount_c : 2 ≤ count s₂ (Function.update pos n (some (d + 1, 512 * q + i)))
      (restHeld (Function.update base n 1) live) (ppn (s.entry t i)) := by
    rw [hcount, h.count_alloc ha hcn hlt]
    exact le_trans hrefs (Nat.le_add_right _ _)
  have hcount_n : count s₂ (Function.update pos n (some (d + 1, 512 * q + i)))
      (restHeld (Function.update base n 1) live) n = 1 := by
    rw [hcount, h₁.count_fresh hn₁, Nat.add_eq_left]
    refine Finset.sum_eq_zero fun j hj => hit_of_ne fun htj => ?_
    obtain ⟨⟨hpj, -⟩, hnj⟩ := target_eq_some_iff.mp htj
    exact hvac _ j (d + 1) _ ⟨hc, by omega, Finset.mem_range.mp hj⟩ hpj hnj
  have hshape := hdup.relink (n := n) ((slot_update_of_ne hnt.symm).mpr hs)
    (by rwa [hent₂]) (by rwa [hent₂]) (by rwa [hent₂, hcopy.total, ht]) (by rwa [hent₂])
    (by simp) h₁.held_fresh hcount_n hfree
  refine ⟨h₁.release hb hshape, ?_⟩
  have h512 : ∀ j < 512, j < entryCount (3 - (d + 1)) := by
    intro j hj
    rwa [entryCount, if_neg (by omega)]
  refine moved_of_free (by rwa [hcopy.total, ht]) (fun he => absurd he htc) hnt
    (fun g hgn hgc => (hcopy.other g (fun he => by have := hgc he; omega) hgn).trans
      (congrFun hmem g))
    (fun _ j hj => ?_) ⟨fun h3 => by omega, fun _ j hj => ?_⟩ hfree
  · rw [hcopy.old j, hent₁]
    simp only [h512 j hj, true_and]
  · rw [← hent₁]
    exact hcopy.tableCopy j (h512 j hj)

theorem copyPage (h : Settled base s live pos) (hc : c < s.pageMap.totalPages)
    (ha : s.alloc = some (n, s₁)) :
    Settled (Function.update base n 1) (s₁.setFrame n (s₁.mem c)) live pos ∧
      Vacant (s₁.setFrame n (s₁.mem c)) pos n ∧
      (∀ g, g ≠ n → (s₁.setFrame n (s₁.mem c)).mem g = s.mem g) ∧
      CopyOf s (s₁.setFrame n (s₁.mem c)) 3 c n := by
  obtain ⟨hpos, hb, hvac, h₁⟩ := h.alloc ha
  obtain ⟨hmem, -, hn, -, ht, -⟩ := Vm.alloc_eq_some ha
  have hmem' : ∀ u, pos u ≠ none → (s₁.setFrame n (s₁.mem c)).mem u = s₁.mem u :=
    fun u hu => Vm.mem_setFrame_of_ne (by rintro rfl; exact hu hpos)
  refine ⟨h₁.setOutside rfl hmem', hvac.congr hmem', fun g hg => ?_, fun _ => ?_, fun h3 => ?_⟩
  · rw [Vm.mem_setFrame_of_ne hg, hmem]
  · rw [Vm.mem_setFrame_self, hmem, Vm.pageMap_setFrame, ht]
    exact ⟨rfl, by omega⟩
  · omega

/-- Unsharing a payload page. -/
theorem unsharePage (h : Settled base s live pos) (hs : Slot pos t i 3 q)
    (hp : present (s.entry t i) = true) (hsh : shared (s.entry t i) = false)
    (hlt : ppn (s.entry t i) < s.pageMap.totalPages)
    (hrefs : 2 ≤ count s pos (restHeld base live) (ppn (s.entry t i)))
    (ha : s.alloc = some (n, s₁)) (hs₂ : s₂ = s₁.setFrame n (s₁.mem (ppn (s.entry t i))))
    (hfree : s₂.free (ppn (s₂.entry t i)) = some s₃) :
    Settled base (s₃.setEntry t i (GenericPagingTable.relink (s₃.entry t i) n)) live
        (Function.update pos n (some (4, 512 * q + i))) ∧
      Moved s (s₃.setEntry t i (GenericPagingTable.relink (s₃.entry t i) n)) t i
        (ppn (s.entry t i)) n 3 := by
  obtain ⟨hpos, hb, -, -⟩ := h.alloc ha
  obtain ⟨hmem, -, hn, -, ht, -⟩ := Vm.alloc_eq_some ha
  obtain ⟨h₂, hvac, hother, hcopy⟩ := h.copyPage hlt ha
  rw [← hs₂] at h₂ hvac hother hcopy
  have hc := (h.entries hs hp).child hsh hlt
  have ht₂ : s₂.pageMap.totalPages = s.pageMap.totalPages := by rw [hs₂, ← ht]; rfl
  have hnt : n ≠ t := by rintro rfl; simpa [hpos] using hs.pos_eq
  have hcn : ppn (s.entry t i) ≠ n := by intro he; simp [he, hpos] at hc
  have hent₂ : s₂.entry t i = s.entry t i := Vm.entry_congr (hother t hnt.symm)
  have hempty : ∀ j < width (some (4, 512 * q + i)), present (s₂.entry n j) = false :=
    fun j hj => by simp [width] at hj
  have hadopt := h₂.adopt (p := (4, 512 * q + i)) (ht₂ ▸ hn) hpos hvac h₂.held_fresh.symm.le le_rfl
    hempty (h₂.root_update hpos (by simp))
  have hcount := fun f => count_adopt (f := f) (restHeld (Function.update base n 1) live)
    (ht₂ ▸ hn) hpos hempty
  have hcount_c : 2 ≤ count s₂ (Function.update pos n (some (4, 512 * q + i)))
      (restHeld (Function.update base n 1) live) (ppn (s.entry t i)) := by
    rw [hcount, ← h₂.counter_eq (ht₂ ▸ hlt), hs₂, Vm.pageMap_setFrame,
      (h.alloc ha).2.2.2.counter_eq (ht ▸ hlt), h.count_alloc ha hcn hlt]
    exact hrefs
  have hshape := hadopt.relink (n := n) ((slot_update_of_ne hnt.symm).mpr hs)
    (by rwa [hent₂]) (by rwa [hent₂]) (by rwa [hent₂, ht₂]) (by rwa [hent₂])
    (by simp) h₂.held_fresh (by rw [hcount, h₂.count_fresh (ht₂ ▸ hn)]) hfree
  refine ⟨h₂.release hb hshape, ?_⟩
  exact moved_of_free (by rwa [ht₂]) (fun _ => rfl) hnt (fun g hg _ => hother g hg)
    (fun h3 => absurd h3 (lt_irrefl 3)) hcopy hfree

theorem count_of_pos_none (h : Settled base s live pos) (hf : f < s.pageMap.totalPages)
    (hp : pos f = none) : count s pos (restHeld base live) f = base f := by
  simp [count, h.deg_eq_zero hf hp, restHeld, h.notMem_live_of_pos_none hp]

/-- Unsharing a page of a shared mapping takes a reference away from the kernel. -/
theorem unshareDevice (h : Settled base s live pos) (hs : Slot pos t i 3 q)
    (hp : present (s.entry t i) = true) (hsh : shared (s.entry t i) = true)
    (hlt : ppn (s.entry t i) < s.pageMap.totalPages)
    (hrefs : 2 ≤ count s pos (restHeld base live) (ppn (s.entry t i)))
    (ha : s.alloc = some (n, s₁)) (hs₂ : s₂ = s₁.setFrame n (s₁.mem (ppn (s.entry t i))))
    (hfree : s₂.free (ppn (s₂.entry t i)) = some s₃) :
    Settled (Function.update (Function.update base n 1) (ppn (s.entry t i))
        (base (ppn (s.entry t i)) - 1))
        (s₃.setEntry t i (GenericPagingTable.relink (s₃.entry t i) n)) live pos ∧
      Moved s (s₃.setEntry t i (GenericPagingTable.relink (s₃.entry t i) n)) t i
        (ppn (s.entry t i)) n 3 := by
  obtain ⟨hpos, hb, -, -⟩ := h.alloc ha
  obtain ⟨hmem, -, hn, -, ht, -⟩ := Vm.alloc_eq_some ha
  obtain ⟨h₂, -, hother, hcopy⟩ := h.copyPage hlt ha
  rw [← hs₂] at h₂ hother hcopy
  have hc := ((h.entries hs hp).device hsh hlt).1
  rw [h.count_of_pos_none hlt hc] at hrefs
  have ht₂ : s₂.pageMap.totalPages = s.pageMap.totalPages := by rw [hs₂, ← ht]; rfl
  have hnt : n ≠ t := by rintro rfl; simpa [hpos] using hs.pos_eq
  have hcn : ppn (s.entry t i) ≠ n := by intro he; rw [he] at hrefs; omega
  have hent₂ : s₂.entry t i = s.entry t i := Vm.entry_congr (hother t hnt.symm)
  have hheld : restHeld (Function.update base n 1) live (ppn (s.entry t i)) =
      base (ppn (s.entry t i)) := by
    simp [restHeld, hcn, h.notMem_live_of_pos_none hc]
  have hshape := h₂.relinkDevice (n := n) hs (by rwa [hent₂]) (by rwa [hent₂])
    (by rwa [hent₂, ht₂]) (by rwa [hent₂, hheld]) (ht₂ ▸ hn) hpos h₂.held_fresh.symm.le
    (by rw [hent₂]; exact hcn.symm) hfree
  have hrest : Function.update (restHeld (Function.update base n 1) live) (ppn (s.entry t i))
      (restHeld (Function.update base n 1) live (ppn (s.entry t i)) - 1) =
      restHeld (Function.update (Function.update base n 1) (ppn (s.entry t i))
        (base (ppn (s.entry t i)) - 1)) live := by
    funext f
    rcases eq_or_ne f (ppn (s.entry t i)) with rfl | hf
    · simp [restHeld, hcn, h.notMem_live_of_pos_none hc]
    · simp [restHeld, hf]
  rw [hent₂, hrest] at hshape
  refine ⟨{
    toShape := hshape
    nodup := h.nodup
    few := h.few
    base_lt := fun f => ?_
    base_pos := fun {f p} hf => ?_ }, ?_⟩
  · have := h.base_lt (ppn (s.entry t i))
    rcases eq_or_ne f (ppn (s.entry t i)) with rfl | hfc
    · rw [Function.update_self]
      omega
    · rw [Function.update_of_ne hfc]
      exact h₂.base_lt f
  · have hfc : f ≠ ppn (s.entry t i) := by rintro rfl; simp [hc] at hf
    rw [Function.update_of_ne hfc]
    exact h₂.base_pos hf
  · exact moved_of_free (by rwa [ht₂]) (fun _ => rfl) hnt (fun g hg _ => hother g hg)
      (fun h3 => absurd h3 (lt_irrefl 3)) hcopy hfree

/-- Unsharing keeps the shape and what every address space shows. -/
theorem unshare (h : Settled base s live pos) (hs : Slot pos t i d q)
    (hp : present (s.entry t i) = true) (hw : writable (s.entry t i) = true)
    (hrefs : 1 < s.pageMap.getRefs (ppn (s.entry t i)))
    (hu : AddrSpace.unshare (3 - d) t i s = some s') :
    ∃ base' pos', Settled base' s' live pos' ∧ Claimed s s' pos pos' t i d ∧
      (∀ f, base f ≠ 0 → base' f ≠ 0) ∧ (shared (s.entry t i) = false → base' = base) := by
  obtain ⟨htotal, hkernel⟩ := unshare_frame hu
  obtain ⟨n, s₁, s₂, s₃, ha, hs₂, hfree, rfl⟩ := unshare_eq_some hu
  obtain ⟨hpos, hb, hvac, h₁⟩ := h.alloc ha
  obtain ⟨hmem, hk, hn, -, ht, -⟩ := Vm.alloc_eq_some ha
  have hlt : ppn (s.entry t i) < s.pageMap.totalPages := by
    by_contra hge
    simp [Counters.getRefs, not_lt.mp hge] at hrefs
  rw [h.getRefs_eq hlt] at hrefs
  have hvac' : Vacant s pos n := hvac.congr fun u _ => (congrFun hmem u).symm
  have hmono : ∀ p f r, pos f = some r → Function.update pos n (some p) f = some r := by
    intro p f r hf
    have hne : f ≠ n := by rintro rfl; simp [hpos] at hf
    rwa [Function.update_of_ne hne]
  rcases Nat.lt_or_ge d 3 with hd | hd
  · rw [if_neg (by omega)] at hs₂
    obtain ⟨hset, hm⟩ := h.unshareTable hs hd hp hrefs ha hs₂ hfree
    exact ⟨base, _, hset, hm.claimed h.toShape hs hp hw hn hpos hvac' (hmono _) htotal hkernel,
      fun _ => id, fun _ => rfl⟩
  · obtain rfl : d = 3 := by have := hs.depth; omega
    rw [if_pos rfl] at hs₂
    rcases hsh : shared (s.entry t i) with _ | _
    · obtain ⟨hset, hm⟩ := h.unsharePage hs hp hsh hlt hrefs ha hs₂ hfree
      exact ⟨base, _, hset, hm.claimed h.toShape hs hp hw hn hpos hvac' (hmono _) htotal hkernel,
        fun _ => id, fun _ => rfl⟩
    · obtain ⟨hset, hm⟩ := h.unshareDevice hs hp hsh hlt hrefs ha hs₂ hfree
      refine ⟨_, pos, hset, hm.claimed h.toShape hs hp hw hn hpos hvac' (fun _ _ => id) htotal
        hkernel, fun f hf => ?_, fun hf => by cases hf⟩
      rw [h.count_of_pos_none hlt ((h.entries hs hp).device hsh hlt).1] at hrefs
      rcases eq_or_ne f (ppn (s.entry t i)) with rfl | hfc
      · rw [Function.update_self]
        omega
      · rw [Function.update_of_ne hfc]
        rcases eq_or_ne f n with rfl | hfn
        · simp
        · rwa [Function.update_of_ne hfn]

theorem restoreWrite (h : Settled base s live pos) (hs : Slot pos t i d q)
    (hp : present (s.entry t i) = true) (hw : writable (s.entry t i) = true)
    (hrefs : s.pageMap.getRefs (ppn (s.entry t i)) ≤ 1) :
    Settled base (s.setEntry t i (setWrite (s.entry t i) true)) live pos ∧
      Claimed s (s.setEntry t i (setWrite (s.entry t i) true)) pos pos t i d := by
  have hother : ∀ u j, u ≠ t ∨ j ≠ i →
      (s.setEntry t i (setWrite (s.entry t i) true)).entry u j = s.entry u j :=
    fun _ _ => Vm.entry_setEntry_of_ne
  have hsame : ∀ u j, SameBits (s.entry u j)
      ((s.setEntry t i (setWrite (s.entry t i) true)).entry u j) ∧
      ppn ((s.setEntry t i (setWrite (s.entry t i) true)).entry u j) = ppn (s.entry u j) := by
    intro u j
    by_cases huj : u = t ∧ j = i
    · obtain ⟨rfl, rfl⟩ := huj
      rw [Vm.entry_setEntry_self]
      exact ⟨sameBits_setWrite hw, ppn_setWrite _ _⟩
    · rw [hother u j (by tauto)]
      exact ⟨.refl _, rfl⟩
  refine ⟨{ h with toShape := h.toShape.restoreWrite hs hp fun hsh hlt => ?_ }, {
    mono := fun _ _ => id
    alike := fun f d' q' hf hd' => ?_
    total := rfl
    kernel := rfl
    present_eq := by simpa using hp
    write_eq := by simp
    above := fun u j _ _ _ _ => hother u j }⟩
  · rw [h.getRefs_eq hlt] at hrefs
    exact le_antisymm hrefs (h.used ((h.entries hs hp).child hsh hlt))
  · refine h.alike rfl (fun u j _ _ _ => (hsame u j).1) (fun u j _ _ _ _ => Or.inl (hsame u j).2) ?_
      (by omega) hd' hf (Or.inl rfl)
    intro u j q'' hu hpu
    exact Vm.mem_setEntry_of_ne (h.page_ne_table hu hpu hs.pos_eq hs.depth)

theorem reshaped_self (h : Settled base s live pos) : Reshaped s s pos pos where
  mono _ _ := id
  alike _ _ _ hf hd := h.alike rfl (fun _ _ _ _ _ => .refl _) (fun _ _ _ _ _ _ => Or.inl rfl)
    (fun _ _ _ _ _ => rfl) (by omega) hd hf (Or.inl rfl)
  total := rfl
  kernel := rfl

theorem claimed_self (h : Settled base s live pos) (hp : present (s.entry t i) = true)
    (hw : write (s.entry t i) = true) : Claimed s s pos pos t i d where
  toReshaped := h.reshaped_self
  present_eq := hp
  write_eq := hw
  above _ _ _ _ _ _ _ := rfl

/-- One step of `triggerCow` on an entry that may be written. -/
theorem claimEntry (h : Settled base s live pos) (hs : Slot pos t i d q)
    (hp : present (s.entry t i) = true) (hw : writable (s.entry t i) = true)
    (hc : AddrSpace.claimEntry (3 - d) t i s = some s') :
    ∃ base' pos', Settled base' s' live pos' ∧ Claimed s s' pos pos' t i d ∧
      (∀ f, base f ≠ 0 → base' f ≠ 0) ∧ (shared (s.entry t i) = false → base' = base) := by
  unfold AddrSpace.claimEntry at hc
  dsimp only at hc
  split_ifs at hc with hrefs hwr
  · exact h.unshare hs hp hw hrefs hc
  · cases hc
    obtain ⟨hset, hcl⟩ := h.restoreWrite hs hp hw (not_lt.mp hrefs)
    exact ⟨base, pos, hset, hcl, fun _ => id, fun _ => rfl⟩
  · cases hc
    have hwrite : write (s.entry t i) = true := by
      rw [writable] at hw
      revert hw hwr
      cases write (s.entry t i) <;> cases cowWasWritable (s.entry t i) <;> simp
    exact ⟨base, pos, h, h.claimed_self hp hwrite, fun _ => id, fun _ => rfl⟩

end Settled

end AddrSpace

end Koerix
