import Koerix.AddrSpace.Shape

/-! # Elementary changes of the tables

How the shape survives the steps that all operations are made of: allocating
a frame, writing to a frame without a position, linking a fresh frame into an
empty entry, restoring a write permission, duplicating a table, and moving an
entry over to the duplicate.
-/

namespace Koerix

open GenericPagingTable InDegree

namespace AddrSpace

variable {s s' : Vm} {live : List ℕ} {pos pos' : Positions} {held base : ℕ → ℕ}
  {f g t i d q n c virt total : ℕ} {e e' : GenericPagingTable}

/-- No user entry points to the frame. -/
def Vacant (s : Vm) (pos : Positions) (n : ℕ) : Prop :=
  ∀ t i d q, Slot pos t i d q → present (s.entry t i) = true → ppn (s.entry t i) ≠ n

theorem Vacant.congr (h : Vacant s pos n) (hmem : ∀ t, pos t ≠ none → s'.mem t = s.mem t) :
    Vacant s' pos n := by
  intro t i d q hs
  rw [Vm.entry_congr (hmem t (by simp [hs.pos_eq]))]
  exact h t i d q hs

theorem EntryOk.mono {refs refs' : ℕ → ℕ} (h : EntryOk total pos refs d q i e)
    (hpos : ppn e < total → pos' (ppn e) = pos (ppn e))
    (hused : ppn e < total → 0 < refs (ppn e) → 0 < refs' (ppn e))
    (hone : shared e = false → ppn e < total → refs (ppn e) = 1 → refs' (ppn e) = 1) :
    EntryOk total pos' refs' d q i e where
  child hsh hlt := (hpos hlt).trans (h.child hsh hlt)
  device hsh hlt := ⟨(hpos hlt).trans (h.device hsh hlt).1, hused hlt (h.device hsh hlt).2⟩
  upper := h.upper
  owned hw hsh hlt := hone hsh hlt (h.owned hw hsh hlt)

theorem target_congr {k : ℕ × ℕ} (h : s'.entry k.1 k.2 = s.entry k.1 k.2) :
    target s' k = target s k := by
  simp [target, h]

theorem target_of_present (h : present (s.entry t i) = true)
    (hsh : shared (s.entry t i) = false) : target s (t, i) = some (ppn (s.entry t i)) := by
  simp [target, counted, h, hsh]

theorem target_of_not_present (h : present (s.entry t i) = false) : target s (t, i) = none := by
  simp [target, counted, h]

theorem target_of_shared (h : shared (s.entry t i) = true) : target s (t, i) = none := by
  simp [target, counted, h]

section Insert

theorem slots_insert {p : ℕ × ℕ} (hn : n < total) (hp : pos n = none) :
    slots total (Function.update pos n (some p)) =
      slots total pos ∪ {n} ×ˢ Finset.range (width (some p)) := by
  ext ⟨t, i⟩
  have hw := width_le (some p)
  simp only [slots, Finset.mem_union, Finset.mem_filter, Finset.mem_product, Finset.mem_range,
    Finset.mem_singleton]
  rcases eq_or_ne t n with rfl | hne
  · simp only [Function.update_self, hp, width, not_lt_zero, and_false, false_or, true_and]
    constructor
    · exact fun h => h.2
    · exact fun h => ⟨⟨hn, lt_of_lt_of_le h hw⟩, h⟩
  · simp [hne]

theorem disjoint_slots (hp : pos n = none) (w : ℕ) :
    Disjoint (slots total pos) ({n} ×ˢ Finset.range w) := by
  rw [Finset.disjoint_left]
  rintro ⟨t, i⟩ hk hk'
  simp only [Finset.mem_product, Finset.mem_singleton] at hk'
  obtain ⟨_, d, q, hs⟩ := mem_slots.mp hk
  rw [hk'.1] at hs
  simpa [hp] using hs.pos_eq

theorem deg_insert {p : ℕ × ℕ} (hn : n < total) (hp : pos n = none) :
    deg (slots total (Function.update pos n (some p))) (target s) f =
      deg (slots total pos) (target s) f +
        deg ({n} ×ˢ Finset.range (width (some p))) (target s) f := by
  rw [slots_insert hn hp, deg_union (disjoint_slots hp _)]

theorem deg_row_eq_zero {w : ℕ} (h : ∀ i < w, present (s.entry n i) = false) :
    deg ({n} ×ˢ Finset.range w) (target s) f = 0 := by
  refine deg_eq_zero_iff.mpr ?_
  rintro ⟨t, i⟩ hk
  simp only [Finset.mem_product, Finset.mem_singleton, Finset.mem_range] at hk
  obtain ⟨rfl, hi⟩ := hk
  simp [target_of_not_present (h i hi)]

theorem slot_update_of_ne {p : ℕ × ℕ} (hne : t ≠ n) :
    Slot (Function.update pos n (some p)) t i d q ↔ Slot pos t i d q := by
  constructor
  · rintro ⟨h, hd, hi⟩
    exact ⟨by rwa [Function.update_of_ne hne] at h, hd, hi⟩
  · rintro ⟨h, hd, hi⟩
    exact ⟨by rwa [Function.update_of_ne hne], hd, hi⟩

theorem count_adopt {p : ℕ × ℕ} (held : ℕ → ℕ) (hn : n < s.pageMap.totalPages) (hpos : pos n = none)
    (hempty : ∀ j < width (some p), present (s.entry n j) = false) :
    count s (Function.update pos n (some p)) held f = count s pos held f := by
  rw [count, deg_insert hn hpos, deg_row_eq_zero hempty, Nat.add_zero, count]

end Insert

namespace Shape

theorem root_update {p : ℕ × ℕ} (h : Shape s live pos held) (hpos : pos n = none) (hd : p.1 ≠ 0)
    (f q : ℕ) : Function.update pos n (some p) f = some (0, q) ↔ f ∈ live ∧ q = 0 := by
  rcases eq_or_ne f n with rfl | hne
  · have hl : f ∉ live := fun hm => by simpa [hpos] using h.root.mpr ⟨hm, rfl⟩
    simp only [Function.update_self, Option.some.injEq, hl, false_and, iff_false]
    rintro rfl
    exact hd rfl
  · rw [Function.update_of_ne hne]
    exact h.root

/-- Giving a position to a held frame that has no user entries. -/
theorem adopt {live' : List ℕ} {p : ℕ × ℕ} (h : Shape s live pos held)
    (hn : n < s.pageMap.totalPages) (hpos : pos n = none) (hvac : Vacant s pos n)
    (hheld : 0 < held n) (hd : p.1 ≤ 4)
    (hempty : ∀ j < width (some p), present (s.entry n j) = false)
    (hroot : ∀ f q, Function.update pos n (some p) f = some (0, q) ↔ f ∈ live' ∧ q = 0) :
    Shape s live' (Function.update pos n (some p)) held := by
  have hcount : ∀ f, count s (Function.update pos n (some p)) held f = count s pos held f :=
    fun _ => count_adopt held hn hpos hempty
  constructor
  case bounded =>
    intro f d q hf
    rcases eq_or_ne f n with rfl | hne
    · simp only [Function.update_self, Option.some.injEq] at hf
      subst hf
      exact ⟨hn, hd⟩
    · exact h.bounded (by rwa [Function.update_of_ne hne] at hf)
  case root => exact hroot _ _
  case entries =>
    intro t i d q hs hpres
    rcases eq_or_ne t n with rfl | hne
    · have hw := hs.width_eq
      rw [Function.update_self] at hw
      rw [hempty i (hw ▸ hs.index)] at hpres
      cases hpres
    · have hs' := (slot_update_of_ne hne).mp hs
      exact (h.entries hs' hpres).mono (fun _ => Function.update_of_ne (hvac t i d q hs' hpres) ..)
        (fun _ h0 => by rwa [hcount]) fun _ _ h1 => (hcount _).trans h1
  case refs => exact fun hf => (h.refs hf).trans (by rw [hcount])
  case used =>
    intro f r hf
    rw [hcount]
    rcases eq_or_ne f n with rfl | hne
    · exact Nat.add_pos_right _ hheld
    · exact h.used (p := r) (by rwa [Function.update_of_ne hne] at hf)

theorem count_redirect (held' : ℕ → ℕ) (h : Shape s live pos held) (hs : Slot pos t i d q)
    (hother : ∀ t' i', t' ≠ t ∨ i' ≠ i → s'.entry t' i' = s.entry t' i')
    (ht : s'.pageMap.totalPages = s.pageMap.totalPages) (f : ℕ) :
    count s' pos held' f + hit (target s (t, i)) f + held f =
      count s pos held f + hit (target s' (t, i)) f + held' f := by
  have hdeg : deg (slots s.pageMap.totalPages pos) (target s') f + hit (target s (t, i)) f =
      deg (slots s.pageMap.totalPages pos) (target s) f + hit (target s' (t, i)) f := by
    refine deg_redirect (h.slot_mem hs) ?_
    rintro ⟨t', i'⟩ _ hne
    refine target_congr (hother t' i' ?_)
    by_contra hc
    simp_all
  unfold count
  rw [ht]
  omega

theorem redirect {held' : ℕ → ℕ} (h : Shape s live pos held) (hs : Slot pos t i d q)
    (hother : ∀ t' i', t' ≠ t ∨ i' ≠ i → s'.entry t' i' = s.entry t' i')
    (ht : s'.pageMap.totalPages = s.pageMap.totalPages)
    (hnew : EntryOk s.pageMap.totalPages pos (count s' pos held') d q i (s'.entry t i))
    (hone : ∀ f, count s pos held f = 1 → count s' pos held' f = 1)
    (hrefs : ∀ f < s.pageMap.totalPages,
      s'.pageMap.pagemap f = UInt8.ofNat (count s' pos held' f))
    (hused : ∀ f, 0 < count s pos held f → 0 < count s' pos held' f) :
    Shape s' live pos held' where
  bounded := ht ▸ h.bounded
  root := h.root
  entries := by
    intro t' i' d' q' hs' hpres
    rw [ht]
    by_cases hk : t' = t ∧ i' = i
    · obtain ⟨rfl, rfl⟩ := hk
      obtain ⟨rfl, rfl⟩ := hs.unique hs'
      exact hnew
    · rw [hother t' i' (by tauto)] at hpres ⊢
      exact (h.entries hs' hpres).mono (fun _ => rfl) (fun _ => hused _) fun _ _ => hone _
  refs hf := hrefs _ (ht ▸ hf)
  used hp := hused _ (h.used hp)

theorem link (h : Shape s live pos held) (hs : Slot pos t i d q)
    (hfree : present (s.entry t i) = false) (hn : pos n = some (d + 1, 512 * q + i))
    (hheld : held n = 1) (hcn : count s pos held n = 1) (hp : present e = true)
    (hppn : ppn e = n) (hsh : shared e = false)
    (hup : d < 3 → writable e = true ∧ user e = true ∧ noExec e = false) :
    Shape (s.setEntry t i e) live pos (Function.update held n 0) := by
  have htgt : target (s.setEntry t i e) (t, i) = some n := by
    rw [target_of_present (by simpa using hp) (by simpa using hsh), Vm.entry_setEntry_self, hppn]
  have hother : ∀ t' i', t' ≠ t ∨ i' ≠ i → (s.setEntry t i e).entry t' i' = s.entry t' i' :=
    fun _ _ => Vm.entry_setEntry_of_ne
  have hcount : ∀ f, count (s.setEntry t i e) pos (Function.update held n 0) f =
      count s pos held f := by
    intro f
    have hc := h.count_redirect (Function.update held n 0) hs hother rfl f
    rw [htgt, target_of_not_present hfree, hit_none] at hc
    rcases eq_or_ne f n with rfl | hne
    · rw [hit_self, Function.update_self] at hc
      omega
    · rw [hit_of_ne (by simpa using hne.symm), Function.update_of_ne hne] at hc
      omega
  refine h.redirect hs hother rfl ?_ (fun f h1 => (hcount f).trans h1)
    (fun f hf => by rw [hcount]; exact h.refs hf) (fun f hf => by rwa [hcount])
  rw [Vm.entry_setEntry_self]
  exact {
    child := fun _ _ => by rw [hppn]; exact hn
    device := fun hsh' => by simp [hsh] at hsh'
    upper := fun hd => ⟨by rw [hppn]; exact (h.bounded hn).1, hsh, hup hd⟩
    owned := fun _ _ _ => by rw [hppn, hcount, hcn] }

/-- Filling an empty page table entry without taking a reference: with a frame outside the
page map, or with a shared mapping of a frame that the kernel holds. -/
theorem linkDevice (h : Shape s live pos held) (hs : Slot pos t i 3 q)
    (hfree : present (s.entry t i) = false)
    (hdev : ppn e < s.pageMap.totalPages →
      shared e = true ∧ pos (ppn e) = none ∧ 0 < held (ppn e)) :
    Shape (s.setEntry t i e) live pos held := by
  have htgt : ∀ f < s.pageMap.totalPages, target (s.setEntry t i e) (t, i) ≠ some f := by
    rintro f hf he
    obtain ⟨⟨-, hsh⟩, rfl⟩ := target_eq_some_iff.mp he
    rw [Vm.entry_setEntry_self] at hf hsh
    simp [hdev hf] at hsh
  have hother : ∀ t' i', t' ≠ t ∨ i' ≠ i → (s.setEntry t i e).entry t' i' = s.entry t' i' :=
    fun _ _ => Vm.entry_setEntry_of_ne
  have hcount : ∀ f, count s pos held f ≤ count (s.setEntry t i e) pos held f ∧
      (f < s.pageMap.totalPages → count (s.setEntry t i e) pos held f = count s pos held f) := by
    intro f
    have hc := h.count_redirect held hs hother rfl f
    rw [target_of_not_present hfree, hit_none] at hc
    refine ⟨by omega, fun hf => ?_⟩
    rw [hit_of_ne (htgt f hf)] at hc
    omega
  constructor
  case bounded => exact h.bounded
  case root => exact h.root
  case entries =>
    intro t' i' d' q' hs' hpres
    by_cases hk : t' = t ∧ i' = i
    · obtain ⟨rfl, rfl⟩ := hk
      obtain ⟨rfl, rfl⟩ := hs.unique hs'
      rw [Vm.entry_setEntry_self, Vm.pageMap_setEntry]
      exact {
        child := fun hsh hlt => by simp [hdev hlt] at hsh
        device := fun _ hlt => ⟨(hdev hlt).2.1, Nat.add_pos_right _ (hdev hlt).2.2⟩
        upper := fun hd => absurd hd (lt_irrefl 3)
        owned := fun _ hsh hlt => by simp [hdev hlt] at hsh }
    · rw [hother t' i' (by tauto)] at hpres ⊢
      exact (h.entries hs' hpres).mono (fun _ => rfl)
        (fun _ h0 => lt_of_lt_of_le h0 (hcount _).1) fun _ hlt h1 => ((hcount _).2 hlt).trans h1
  case refs => exact fun hf => (h.refs hf).trans (by rw [(hcount _).2 hf])
  case used => exact fun hf => lt_of_lt_of_le (h.used hf) (hcount _).1

theorem restoreWrite (h : Shape s live pos held) (hs : Slot pos t i d q)
    (hp : present (s.entry t i) = true)
    (hone : shared (s.entry t i) = false → ppn (s.entry t i) < s.pageMap.totalPages →
      count s pos held (ppn (s.entry t i)) = 1) :
    Shape (s.setEntry t i (setWrite (s.entry t i) true)) live pos held := by
  have hother : ∀ t' i', t' ≠ t ∨ i' ≠ i →
      (s.setEntry t i (setWrite (s.entry t i) true)).entry t' i' = s.entry t' i' :=
    fun _ _ => Vm.entry_setEntry_of_ne
  have hcount : ∀ f, count (s.setEntry t i (setWrite (s.entry t i) true)) pos held f =
      count s pos held f := by
    intro f
    have hc := h.count_redirect held hs hother rfl f
    have htgt : target (s.setEntry t i (setWrite (s.entry t i) true)) (t, i) = target s (t, i) := by
      simp [target, counted]
    rw [htgt] at hc
    omega
  have hok := h.entries hs hp
  refine h.redirect hs hother rfl ?_ (fun f h1 => (hcount f).trans h1)
    (fun f hf => by rw [hcount]; exact h.refs hf) (fun f hf => by rwa [hcount])
  rw [Vm.entry_setEntry_self]
  exact {
    child := by simpa using hok.child
    device := by simpa [hcount] using hok.device
    upper := fun hd => by
      obtain ⟨hlt, hsh, -, hrest⟩ := hok.upper hd
      simpa [writable, hlt, hsh] using hrest
    owned := fun _ hsh hlt => by
      simpa [hcount] using hone (by simpa using hsh) (by simpa using hlt) }

theorem redirectFree {held' : ℕ → ℕ} (h : Shape s live pos held) (hs : Slot pos t i d q)
    (hother : ∀ t' i', t' ≠ t ∨ i' ≠ i → s'.entry t' i' = s.entry t' i')
    (ht : s'.pageMap.totalPages = s.pageMap.totalPages)
    (hnew : EntryOk s.pageMap.totalPages pos (count s' pos held') d q i (s'.entry t i))
    (htwo : 2 ≤ count s pos held c)
    (hcount : ∀ f, count s' pos held' f + (if f = c then 1 else 0) = count s pos held f)
    (hpm : s'.pageMap.pagemap =
      Function.update s.pageMap.pagemap c (s.pageMap.pagemap c - 1)) :
    Shape s' live pos held' := by
  refine h.redirect hs hother ht hnew ?_ ?_ ?_
  · intro f h1
    have := hcount f
    rw [if_neg (by rintro rfl; omega)] at this
    omega
  · intro f hf
    have hcf := hcount f
    rw [hpm]
    rcases eq_or_ne f c with rfl | hfc
    · rw [if_pos rfl] at hcf
      rw [Function.update_self, h.refs hf, ← hcf, UInt8.ofNat_add]
      simp
    · rw [if_neg hfc, Nat.add_zero] at hcf
      rw [Function.update_of_ne hfc, h.refs hf, hcf]
  · intro f hpos
    have hcf := hcount f
    split_ifs at hcf with hfc
    · subst hfc
      omega
    · omega

/-- Moving an entry from a shared frame to the only reference to a held frame. -/
theorem relink (h : Shape s live pos held) (hs : Slot pos t i d q)
    (hp : present (s.entry t i) = true) (hsh : shared (s.entry t i) = false)
    (hc : ppn (s.entry t i) < s.pageMap.totalPages)
    (hshared : 2 ≤ count s pos held (ppn (s.entry t i)))
    (hn : pos n = some (d + 1, 512 * q + i)) (hheld : held n = 1)
    (hcn : count s pos held n = 1) (hfree : s.free (ppn (s.entry t i)) = some s') :
    Shape (s'.setEntry t i (GenericPagingTable.relink (s'.entry t i) n)) live pos
      (Function.update held n 0) := by
  obtain ⟨hmem, -, -, ht, hpm⟩ := Vm.free_eq_some hfree hc
  have hent : ∀ t i, s'.entry t i = s.entry t i := fun t _ => Vm.entry_congr (congrFun hmem t)
  rw [hent t i]
  set e := s.entry t i with he
  have hlt : n < 2 ^ 28 := lt_of_lt_of_le (h.bounded hn).1 s.pageMap.fits
  have hppn : ppn (GenericPagingTable.relink e n) = n := by
    rw [ppn_relink, Nat.mod_eq_of_lt hlt]
  have htgt : target (s'.setEntry t i (GenericPagingTable.relink e n)) (t, i) = some n := by
    rw [target_of_present (by simpa using hp) (by simpa using hsh), Vm.entry_setEntry_self, hppn]
  have hother : ∀ t' i', t' ≠ t ∨ i' ≠ i →
      (s'.setEntry t i (GenericPagingTable.relink e n)).entry t' i' = s.entry t' i' :=
    fun t' i' hne => (Vm.entry_setEntry_of_ne hne).trans (hent t' i')
  have hne : n ≠ ppn e := by rintro rfl; omega
  -- one reference moves from the shared frame to the fresh one, which gives up its held one
  have hcount : ∀ f, count (s'.setEntry t i (GenericPagingTable.relink e n)) pos
      (Function.update held n 0) f + (if f = ppn e then 1 else 0) = count s pos held f := by
    intro f
    have hcr := h.count_redirect (Function.update held n 0) hs hother ht f
    rw [htgt, target_of_present hp hsh, ← he] at hcr
    rcases eq_or_ne f n with rfl | hfn
    · rw [hit_of_ne (by simpa using hne.symm), hit_self, Function.update_self] at hcr
      rw [if_neg hne]
      omega
    · rw [hit_of_ne (o := some n) (by simpa using hfn.symm), Function.update_of_ne hfn] at hcr
      rcases eq_or_ne f (ppn e) with rfl | hfe
      · rw [hit_self] at hcr
        rw [if_pos rfl]
        omega
      · rw [hit_of_ne (by simpa using hfe.symm)] at hcr
        rw [if_neg hfe]
        omega
  have hok := h.entries hs hp
  refine h.redirectFree hs hother ht ?_ hshared hcount hpm
  rw [Vm.entry_setEntry_self]
  exact {
    child := fun _ _ => by rw [hppn]; exact hn
    device := fun hsh' => by simp [hsh] at hsh'
    upper := fun hd => by
      obtain ⟨-, -, -, hrest⟩ := hok.upper hd
      simpa [writable, hppn, (h.bounded hn).1, hsh] using hrest
    owned := fun _ _ _ => by
      have := hcount n
      rw [if_neg hne] at this
      rw [hppn]
      omega }

/-- Moving a shared mapping to another frame that the kernel holds. -/
theorem relinkDevice (h : Shape s live pos held) (hs : Slot pos t i d q)
    (hp : present (s.entry t i) = true) (hsh : shared (s.entry t i) = true)
    (hc : ppn (s.entry t i) < s.pageMap.totalPages) (hkernel : 2 ≤ held (ppn (s.entry t i)))
    (hn : n < s.pageMap.totalPages) (hpos : pos n = none) (hheld : 0 < held n)
    (hne : n ≠ ppn (s.entry t i)) (hfree : s.free (ppn (s.entry t i)) = some s') :
    Shape (s'.setEntry t i (GenericPagingTable.relink (s'.entry t i) n)) live pos
      (Function.update held (ppn (s.entry t i)) (held (ppn (s.entry t i)) - 1)) := by
  obtain ⟨hmem, -, -, ht, hpm⟩ := Vm.free_eq_some hfree hc
  have hent : ∀ t i, s'.entry t i = s.entry t i := fun t _ => Vm.entry_congr (congrFun hmem t)
  rw [hent t i]
  set e := s.entry t i with he
  have hppn : ppn (GenericPagingTable.relink e n) = n := by
    rw [ppn_relink, Nat.mod_eq_of_lt (lt_of_lt_of_le hn s.pageMap.fits)]
  have hother : ∀ t' i', t' ≠ t ∨ i' ≠ i →
      (s'.setEntry t i (GenericPagingTable.relink e n)).entry t' i' = s.entry t' i' :=
    fun t' i' hne => (Vm.entry_setEntry_of_ne hne).trans (hent t' i')
  have hcount : ∀ f, count (s'.setEntry t i (GenericPagingTable.relink e n)) pos
      (Function.update held (ppn e) (held (ppn e) - 1)) f + (if f = ppn e then 1 else 0) =
        count s pos held f := by
    intro f
    have hcr := h.count_redirect (Function.update held (ppn e) (held (ppn e) - 1)) hs hother ht f
    rw [target_of_shared hsh, target_of_shared (by simpa using hsh), hit_none] at hcr
    rcases eq_or_ne f (ppn e) with rfl | hfe
    · rw [Function.update_self] at hcr
      rw [if_pos rfl]
      omega
    · rw [Function.update_of_ne hfe] at hcr
      rw [if_neg hfe]
      omega
  refine h.redirectFree hs hother ht ?_ (le_trans hkernel (Nat.le_add_left _ _)) hcount hpm
  rw [Vm.entry_setEntry_self]
  exact {
    child := fun hsh' => by simp [hsh] at hsh'
    device := fun _ _ => by
      have := hcount n
      rw [if_neg hne, Nat.add_zero] at this
      rw [hppn, this]
      exact ⟨hpos, Nat.add_pos_right _ hheld⟩
    upper := fun hd => by simp [he, ((h.entries hs hp).upper hd).2.1] at hsh
    owned := fun _ hsh' => by simp [hsh] at hsh' }

end Shape

namespace Settled

/-- A freshly allocated frame is nobody else's. -/
theorem alloc (h : Settled base s live pos) (ha : s.alloc = some (n, s')) :
    pos n = none ∧ base n = 0 ∧ Vacant s' pos n ∧
      Settled (Function.update base n 1) s' live pos := by
  obtain ⟨hmem, -, hn, hz, ht, hp⟩ := Vm.alloc_eq_some ha
  obtain ⟨hpos, hb⟩ := h.pos_none_of_free hn hz
  have htgt : target s' = target s := funext fun _ =>
    target_congr (Vm.entry_congr (congrFun hmem _))
  have hcount : ∀ f, count s' pos (restHeld (Function.update base n 1) live) f =
      count s pos (restHeld base live) f + if f = n then 1 else 0 := by
    intro f
    rcases eq_or_ne f n with rfl | hne
    · simp [count, restHeld, htgt, ht, hb]; omega
    · simp [count, restHeld, htgt, ht, hne]
  have hvac : Vacant s pos n := by
    rintro t i d q hs hpres rfl
    have hok := h.entries hs hpres
    rcases hsh : shared (s.entry t i) with _ | _
    · simpa [hpos] using hok.child hsh hn
    · have := (hok.device hsh hn).2
      rw [← h.counter_eq hn, hz] at this
      simp at this
  have hent : ∀ t i, s'.entry t i = s.entry t i := fun t _ => Vm.entry_congr (congrFun hmem t)
  refine ⟨hpos, hb, fun t i d q hs => by rw [hent]; exact hvac t i d q hs, {
    bounded := ht ▸ h.bounded
    root := h.root
    entries := ?_
    refs := ?_
    used := ?_
    nodup := h.nodup
    few := h.few
    base_lt := ?_
    base_pos := ?_ }⟩
  · intro t i d q hs hpres
    rw [hent] at hpres ⊢
    rw [ht]
    refine (h.entries hs hpres).mono (fun _ => rfl) (fun _ h0 => ?_) fun _ _ h1 => ?_
    · rw [hcount]
      exact Nat.add_pos_left h0 _
    · rw [hcount, if_neg (hvac t i d q hs hpres)]
      exact h1
  · intro f hf
    rw [ht] at hf
    rw [hp, hcount]
    rcases eq_or_ne f n with rfl | hne
    · have h0 := h.counter_eq hf
      rw [hz] at h0
      simp [← h0]
    · simpa [hne] using h.refs hf
  · intro f p hf
    rw [hcount]
    exact Nat.add_pos_left (h.used hf) _
  · intro f
    rcases eq_or_ne f n with rfl | hne
    · simp
    · simpa [hne] using h.base_lt f
  · intro f p hf
    have hne : f ≠ n := by rintro rfl; simp [hpos] at hf
    simpa [hne] using h.base_pos hf

theorem congr_entry (h : Settled base s live pos) (hpm : s'.pageMap = s.pageMap)
    (hent : ∀ t i d q, Slot pos t i d q → s'.entry t i = s.entry t i) :
    Settled base s' live pos := by
  have hdeg : ∀ f, count s' pos (restHeld base live) f = count s pos (restHeld base live) f := by
    intro f
    unfold count
    rw [hpm, deg_congr]
    rintro ⟨t, i⟩ hk
    obtain ⟨_, d, q, hs⟩ := mem_slots.mp hk
    rw [target_congr (k := (t, i)) (hent t i d q hs)]
  refine {
    bounded := hpm ▸ h.bounded
    root := h.root
    entries := ?_
    refs := ?_
    used := ?_
    nodup := h.nodup
    few := h.few
    base_lt := h.base_lt
    base_pos := h.base_pos }
  · intro t i d q hs hpres
    rw [hent t i d q hs] at hpres ⊢
    rw [hpm]
    exact (h.entries hs hpres).mono (fun _ => rfl) (fun _ h0 => by rwa [hdeg])
      fun _ _ h1 => (hdeg _).trans h1
  · intro f hf
    rw [hpm] at hf ⊢
    rw [hdeg]
    exact h.refs hf
  · intro f p hf
    rw [hdeg]
    exact h.used hf

theorem setOutside (h : Settled base s live pos) (hpm : s'.pageMap = s.pageMap)
    (hmem : ∀ t, pos t ≠ none → s'.mem t = s.mem t) : Settled base s' live pos :=
  h.congr_entry hpm fun t _ _ _ hs => Vm.entry_congr (hmem t (by simp [hs.pos_eq]))

theorem notMem_live_of_pos_none (h : Settled base s live pos) (hp : pos f = none) : f ∉ live :=
  fun hm => by simpa [hp] using h.root.mpr ⟨hm, rfl⟩

theorem pos_none_of_base (h : Settled base s live pos) (hb : base f ≠ 0) : pos f = none := by
  by_contra hp
  obtain ⟨p, hp⟩ := Option.ne_none_iff_exists'.mp hp
  exact hb (h.base_pos hp)

theorem held_fresh (h : Settled (Function.update base n 1) s live pos) :
    restHeld (Function.update base n 1) live n = 1 := by
  have hpos : pos n = none := h.pos_none_of_base (by simp)
  simp [restHeld, h.notMem_live_of_pos_none hpos]

theorem count_fresh (h : Settled (Function.update base n 1) s live pos)
    (hn : n < s.pageMap.totalPages) :
    count s pos (restHeld (Function.update base n 1) live) n = 1 := by
  rw [count, h.deg_eq_zero hn (h.pos_none_of_base (by simp)), h.held_fresh]

theorem count_alloc (h : Settled base s live pos) (ha : s.alloc = some (n, s')) (hne : f ≠ n)
    (hf : f < s.pageMap.totalPages) :
    count s' pos (restHeld (Function.update base n 1) live) f =
      count s pos (restHeld base live) f := by
  obtain ⟨-, -, -, -, ht, hp⟩ := Vm.alloc_eq_some ha
  rw [← h.counter_eq hf, ← (h.alloc ha).2.2.2.counter_eq (ht ▸ hf), hp, Function.update_of_ne hne]

theorem restHeld_release (h : Settled (Function.update base n 1) s live pos) (hb : base n = 0) :
    Function.update (restHeld (Function.update base n 1) live) n 0 = restHeld base live := by
  have hpos : pos n = none := h.pos_none_of_base (by simp)
  funext f
  rcases eq_or_ne f n with rfl | hne
  · simp [restHeld, hb, h.notMem_live_of_pos_none hpos]
  · simp [restHeld, hne]

theorem release {s' : Vm} {p : ℕ × ℕ} (h : Settled (Function.update base n 1) s live pos)
    (hb : base n = 0)
    (hshape : Shape s' live (Function.update pos n (some p))
      (Function.update (restHeld (Function.update base n 1) live) n 0)) :
    Settled base s' live (Function.update pos n (some p)) where
  toShape := h.restHeld_release hb ▸ hshape
  nodup := h.nodup
  few := h.few
  base_lt f := by
    rcases eq_or_ne f n with rfl | hne
    · simp [hb]
    · simpa [hne] using h.base_lt f
  base_pos {f r} hf := by
    rcases eq_or_ne f n with rfl | hne
    · exact hb
    · rw [Function.update_of_ne hne] at hf
      exact (Function.update_of_ne hne 1 base) ▸ h.base_pos hf

theorem link (h : Settled (Function.update base n 1) s live pos) (hb : base n = 0)
    (hn : n < s.pageMap.totalPages) (hvac : Vacant s pos n) (hs : Slot pos t i d q)
    (hfree : present (s.entry t i) = false)
    (hempty : ∀ j < width (some (d + 1, 512 * q + i)), present (s.entry n j) = false)
    (hp : present e = true) (hppn : ppn e = n) (hsh : shared e = false)
    (hup : d < 3 → writable e = true ∧ user e = true ∧ noExec e = false) :
    Settled base (s.setEntry t i e) live (Function.update pos n (some (d + 1, 512 * q + i))) := by
  have hpos : pos n = none := h.pos_none_of_base (by simp)
  have hheld := h.held_fresh
  have htn : t ≠ n := by rintro rfl; simpa [hpos] using hs.pos_eq
  have hcn : count s (Function.update pos n (some (d + 1, 512 * q + i)))
      (restHeld (Function.update base n 1) live) n = 1 := by
    rw [count_adopt _ hn hpos hempty, h.count_fresh hn]
  have hshape : Shape s live (Function.update pos n (some (d + 1, 512 * q + i)))
      (restHeld (Function.update base n 1) live) :=
    h.adopt hn hpos hvac hheld.symm.le hs.depth hempty (h.root_update hpos (Nat.succ_ne_zero d))
  exact h.release hb <|
    hshape.link ((slot_update_of_ne htn).mpr hs) hfree (by simp) hheld hcn hp hppn hsh hup

end Settled

end AddrSpace

end Koerix
