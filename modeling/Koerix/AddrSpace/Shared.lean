import Koerix.AddrSpace.Clone

/-! # Entries that stay as they are

Table copies repeat the entries of shared mappings word for word and count
nothing for them, so the tables of a shared mapping may be rearranged without
touching it. The one step that does not look at the shared bit is the claim of
the leaf entry itself: if the counter of the frame is above one, the page is
copied like any other.
-/

namespace Koerix

open GenericPagingTable InDegree

namespace AddrSpace

/-- The present entry `e` has become `e'`, the same word if `p` selects it. -/
structure KeptEntry (p : GenericPagingTable → Prop) (e e' : GenericPagingTable) : Prop where
  present_eq : present e' = true
  word_eq : p e → e' = e

/-- The entries that `p` selects are the same words under `f` and, later, under `f'`. -/
def Keeps (p : GenericPagingTable → Prop) (s s' : Vm) : ℕ → ℕ → ℕ → Prop
  | 0, _, _ => True
  | level + 1, f, f' => ∀ i < entryCount level, present (s.entry f i) = true →
      KeptEntry p (s.entry f i) (s'.entry f' i) ∧
        Keeps p s s' level (ppn (s.entry f i)) (ppn (s'.entry f' i))

/-- The first `w` entries of the table `n` repeat those of `c`. -/
def KeptRow (p : GenericPagingTable → Prop) (s s' : Vm) (w c n : ℕ) : Prop :=
  ∀ i < w, present (s.entry c i) = true → KeptEntry p (s.entry c i) (s'.entry n i) ∧
    ppn (s'.entry n i) = ppn (s.entry c i)

/-- The entries that `p` selects are the same words in all tables. -/
def KeepsAll (p : GenericPagingTable → Prop) (s s' : Vm) (pos : Positions) : Prop :=
  ∀ f d q, pos f = some (d, q) → d < 4 → Keeps p s s' (4 - d) f f

/-- An entry of a shared mapping. -/
def IsShared (e : GenericPagingTable) : Prop := shared e = true

/-- An entry of a shared mapping of the frame `g`, as `map` has written it. -/
def SharesFrame (g : ℕ) (e : GenericPagingTable) : Prop :=
  shared e = true ∧ ppn e = g ∧ cowWasWritable e = false

variable {s s' s'' : Vm} {live : List ℕ} {pos pos' : Positions} {held base : ℕ → ℕ}
  {p p' : GenericPagingTable → Prop} {e e' e'' : GenericPagingTable}
  {f f' g t i d q n c k r virt level phys : ℕ} {flags : MapFlags}

theorem KeptEntry.refl (h : present e = true) : KeptEntry p e e := ⟨h, fun _ => rfl⟩

theorem KeptEntry.trans (h : KeptEntry p e e') (h' : KeptEntry p e' e'') :
    KeptEntry p e e'' where
  present_eq := h'.present_eq
  word_eq hp := by
    have he := h.word_eq hp
    rw [h'.word_eq (he ▸ hp), he]

theorem keptEntry_keep (h : present e = true) : KeptEntry IsShared e (keep e) where
  present_eq := by rwa [present_keep]
  word_eq hsh := if_pos hsh

theorem KeptEntry.mono (h : KeptEntry p e e') (hp : ∀ e, p' e → p e) : KeptEntry p' e e' :=
  ⟨h.present_eq, fun he => h.word_eq (hp e he)⟩

theorem Keeps.trans (h : Keeps p s s' k f f') (h' : Keeps p s' s'' k f' c) :
    Keeps p s s'' k f c := by
  induction k generalizing f f' c with
  | zero => trivial
  | succ k ih =>
    intro i hi hpres
    obtain ⟨he, hc⟩ := h i hi hpres
    obtain ⟨he', hc'⟩ := h' i hi he.present_eq
    exact ⟨he.trans he', ih hc hc'⟩

theorem Keeps.mono (h : Keeps p s s' k f f') (hp : ∀ e, p' e → p e) : Keeps p' s s' k f f' := by
  induction k generalizing f f' with
  | zero => trivial
  | succ k ih =>
    intro i hi hpres
    obtain ⟨he, hc⟩ := h i hi hpres
    exact ⟨he.mono hp, ih hc⟩

theorem KeptRow.mono {w : ℕ} (h : KeptRow p s s' w c n) (hp : ∀ e, p' e → p e) :
    KeptRow p' s s' w c n :=
  fun i hi hpres => ⟨(h i hi hpres).1.mono hp, (h i hi hpres).2⟩

theorem KeepsAll.trans (h : KeepsAll p s s' pos) (h' : KeepsAll p s' s'' pos')
    (hmono : ∀ f x, pos f = some x → pos' f = some x) : KeepsAll p s s'' pos :=
  fun f d q hf hd => (h f d q hf hd).trans (h' f d q (hmono f _ hf) hd)

theorem KeepsAll.mono (h : KeepsAll p s s' pos) (hp : ∀ e, p' e → p e) : KeepsAll p' s s' pos :=
  fun f d q hf hd => (h f d q hf hd).mono hp

theorem SharesFrame.isShared (h : SharesFrame g e) : IsShared e := h.1

/-- If every entry is kept and still points to its old frame or to a table that repeats it,
then the entries under every table are kept, and so are those under a copy of a table. -/
theorem Shape.keeps (h : Shape s live pos held)
    (hent : ∀ t i d q, Slot pos t i d q → present (s.entry t i) = true →
      KeptEntry p (s.entry t i) (s'.entry t i))
    (hppn : ∀ t i d q, Slot pos t i d q → present (s.entry t i) = true → d < 3 →
      ppn (s'.entry t i) = ppn (s.entry t i) ∨
        KeptRow p s s' 512 (ppn (s.entry t i)) (ppn (s'.entry t i)))
    (hk : d + k = 4) (hd : d < 4) (hf : pos f = some (d, q))
    (hf' : f' = f ∨ KeptRow p s s' (entryCount (3 - d)) f f') : Keeps p s s' k f f' := by
  induction k generalizing d q f f' with
  | zero => trivial
  | succ level ih =>
    intro i hi hpres
    have hi' : i < entryCount (3 - d) := by rwa [show 3 - d = level by omega]
    have hs : Slot pos f i d q := ⟨hf, hd, hi'⟩
    have hchild : ∀ x, x = ppn (s.entry f i) ∨
        d < 3 ∧ KeptRow p s s' 512 (ppn (s.entry f i)) x →
        Keeps p s s' level (ppn (s.entry f i)) x := by
      intro x hx
      rcases Nat.lt_or_ge d 3 with h3 | h3
      · have hok := h.entries hs hpres
        obtain ⟨hlt, hsh, -⟩ := hok.upper h3
        exact ih (by omega) (by omega) (hok.child hsh hlt)
          (hx.imp_right fun hc j hj => hc.2 j (lt_of_lt_of_le hj (entryCount_le _)))
      · obtain rfl : level = 0 := by omega
        trivial
    rcases hf' with rfl | hc
    · refine ⟨hent f' i d q hs hpres, ?_⟩
      rcases Nat.lt_or_ge d 3 with h3 | h3
      · exact hchild _ ((hppn f' i d q hs hpres h3).imp_right fun hrow => ⟨h3, hrow⟩)
      · obtain rfl : level = 0 := by omega
        trivial
    · obtain ⟨hkept, hn⟩ := hc i hi' hpres
      exact ⟨hkept, hchild _ (Or.inl hn)⟩

theorem Keeps.entryAt (h : Keeps p s s' 4 r f') (hv : virt < userPages)
    (he : AddrSpace.entryAt s r virt 3 = some e) (hp : p e) :
    AddrSpace.entryAt s' f' virt 3 = some e := by
  have hpath : ∀ d ≤ 3, ∀ t, frameAt s r virt d = some t →
      ∃ t', frameAt s' f' virt d = some t' ∧ Keeps p s s' (4 - d) t t' := by
    intro d
    induction d with
    | zero =>
      intro _ t ht
      cases ht
      exact ⟨f', rfl, h⟩
    | succ d ih =>
      intro hd t ht
      obtain ⟨u, hu, hpres, rfl⟩ := frameAt_succ_eq_some_iff.mp ht
      obtain ⟨u', hu', hk⟩ := ih (by omega) u hu
      rw [show 4 - d = 4 - (d + 1) + 1 by omega] at hk
      have hi : tableIndex (3 - d) virt < entryCount (4 - (d + 1)) := by
        rw [show 4 - (d + 1) = 3 - d by omega]
        exact tableIndex_lt_entryCount hv
      obtain ⟨hkept, hc⟩ := hk _ hi hpres
      exact ⟨_, frameAt_succ_eq_some_iff.mpr ⟨u', hu', hkept.present_eq, rfl⟩, hc⟩
  obtain ⟨t, ht, rfl, hpres⟩ := entryAt_eq_some_iff.mp he
  obtain ⟨t', ht', hk⟩ := hpath 3 le_rfl t ht
  obtain ⟨hkept, -⟩ := hk _ (tableIndex_lt_entryCount (d := 3) hv) hpres
  exact entryAt_eq_some_iff.mpr ⟨t', ht', hkept.word_eq hp, hpres⟩

theorem Keeps.entryAt_of_view (h : Keeps IsShared s s' 4 r f')
    (hview : view s' f' virt = view s r virt) (hv : virt < userPages)
    (he : AddrSpace.entryAt s' f' virt 3 = some e) (hsh : shared e = true) :
    AddrSpace.entryAt s r virt 3 = some e := by
  obtain ⟨e₀, e₁, e₂, hwalk⟩ := exists_walk he
  have hshared : (view s' f' virt).map Page.shared = some true := by simp [view, hwalk, pageOf, hsh]
  rw [hview, view, Option.map_map, Option.map_eq_some_iff] at hshared
  obtain ⟨es, hes, hlast⟩ := hshared
  obtain ⟨x₀, x₁, x₂, x, -, -, -, hx, rfl⟩ := walk_eq_some_iff.mp hes
  have hx' := h.entryAt hv hx hlast
  rw [he] at hx'
  cases hx'
  exact hx

theorem KeepsAll.entryAt (h : KeepsAll p s s' pos) (hs : Shape s live pos held) (hr : r ∈ live)
    (hv : virt < userPages) (he : AddrSpace.entryAt s r virt 3 = some e) (hp : p e) :
    AddrSpace.entryAt s' r virt 3 = some e :=
  (h r 0 0 (hs.root.mpr ⟨hr, rfl⟩) (by decide)).entryAt hv he hp

theorem Settled.pos_of_sharesFrame (h : Settled base s live pos) (hr : r ∈ live)
    (hv : virt < userPages) (he : AddrSpace.entryAt s r virt 3 = some e) (hsh : SharesFrame g e)
    (hg : g < s.pageMap.totalPages) : pos g = none ∧ s.pageMap.pagemap g ≠ 0 := by
  obtain ⟨t, ht, rfl, hp⟩ := entryAt_eq_some_iff.mp he
  obtain ⟨hsh, rfl, -⟩ := hsh
  obtain ⟨hnone, hpos⟩ := (h.entries (h.frameAt_slot hr hv (by decide) ht) hp).device hsh hg
  refine ⟨hnone, fun hz => ?_⟩
  have hc := h.counter_eq hg
  rw [hz, UInt8.toNat_zero] at hc
  omega

/-- What unsharing an entry does to the others, to shared mappings, and to the counters of
frames that are not in the user tables. -/
structure Unshared (s s' : Vm) (pos : Positions) (t i d n : ℕ) : Prop where
  entry : s'.entry t i = relink (s.entry t i) n
  kept : ∀ u j d' q', Slot pos u j d' q' → u ≠ t ∨ j ≠ i → present (s.entry u j) = true →
    KeptEntry IsShared (s.entry u j) (s'.entry u j) ∧ ppn (s'.entry u j) = ppn (s.entry u j)
  copy : d < 3 → KeptRow IsShared s s' 512 (ppn (s.entry t i)) n
  refs : ∀ g < s.pageMap.totalPages, pos g = none → g ≠ n → ppn (s.entry t i) ≠ g →
    s'.pageMap.pagemap g = s.pageMap.pagemap g
  mem : ∀ g, pos g = none → g ≠ n → s'.mem g = s.mem g

theorem pagemap_of_alloc_free {s₁ s₂ s₃ : Vm} (ha : s.alloc = some (n, s₁)) (hgn : g ≠ n)
    (h₂ : s₂.pageMap.pagemap g = s₁.pageMap.pagemap g)
    (hf : s₂.free c = some s₃) (hc : c ≠ g) : s₃.pageMap.pagemap g = s.pageMap.pagemap g := by
  obtain ⟨-, -, -, -, -, hp⟩ := Vm.alloc_eq_some ha
  have h₃ : s₃.pageMap.pagemap g = s₂.pageMap.pagemap g := by
    rcases Nat.lt_or_ge c s₂.pageMap.totalPages with hlt | hge
    · obtain ⟨-, -, -, -, hp₃⟩ := Vm.free_eq_some hf hlt
      rw [hp₃, Function.update_of_ne hc.symm]
    · simp only [Vm.free, PageMap.free_of_le hge, Option.map_some, Option.some.injEq] at hf
      rw [← hf]
  rw [h₃, h₂, hp, Function.update_of_ne hgn]

namespace Settled

variable {s₁ s₂ s₃ : Vm}

theorem sum_hit_eq_zero (h : Settled base s live pos) (hc : pos c = some (d, q)) (hd : d < 4)
    (hg : g < s.pageMap.totalPages) (hpos : pos g = none) :
    ∑ j ∈ Finset.range (entryCount (3 - d)), hit (counted (s.entry c j)) g = 0 := by
  refine Finset.sum_eq_zero fun j hj => hit_of_ne fun htj => ?_
  have hs : Slot pos c j d q := ⟨hc, hd, Finset.mem_range.mp hj⟩
  obtain ⟨_, _, _, hposg⟩ := h.pos_of_target (h.slot_mem hs) htj hg
  simp [hpos] at hposg

/-- Unsharing a table, entry by entry. -/
theorem unshared_table (h : Settled base s live pos) (hs : Slot pos t i d q) (hd : d < 3)
    (hp : present (s.entry t i) = true) (ha : s.alloc = some (n, s₁))
    (hs₂ : s₂ = (List.range 512).foldl (copyEntry (ppn (s.entry t i)) n) s₁)
    (hfree : s₂.free (ppn (s₂.entry t i)) = some s₃) :
    Unshared s (s₃.setEntry t i (GenericPagingTable.relink (s₃.entry t i) n)) pos t i d n := by
  obtain ⟨hpos, -, hvac, -⟩ := h.alloc ha
  obtain ⟨hmem, -, hn, -, ht, -⟩ := Vm.alloc_eq_some ha
  have hok := h.entries hs hp
  obtain ⟨hlt, hsh, -⟩ := hok.upper hd
  have hc := hok.child hsh hlt
  set c := ppn (s.entry t i) with hcdef
  have hnt : n ≠ t := by rintro rfl; simpa [hpos] using hs.pos_eq
  have hcn : c ≠ n := by intro he; simp [he, hpos] at hc
  have htc : t ≠ c := by
    intro he
    rw [← he, hs.pos_eq] at hc
    simp at hc
  have hcopy : CopiedUpTo s₁ s₂ c n 512 := hs₂ ▸ copiedUpTo_foldl_copyEntry s₁ hcn 512
  have hent₁ : ∀ u j, s₁.entry u j = s.entry u j := fun u _ => Vm.entry_congr (congrFun hmem u)
  have hent₂ : ∀ u j, u ≠ c → u ≠ n → s₂.entry u j = s.entry u j := by
    intro u j huc hun
    rw [Vm.entry_congr (hcopy.other u huc hun), hent₁]
  have hent₃ : ∀ u j, s₃.entry u j = s₂.entry u j :=
    fun u _ => Vm.entry_congr (congrFun (Vm.free_frame hfree).1 u)
  have hti : s₃.entry t i = s.entry t i := by rw [hent₃, hent₂ t i htc hnt.symm]
  constructor
  case entry => rw [Vm.entry_setEntry_self, hti]
  case kept =>
    intro u j d' q' hu huj hpu
    have hun : u ≠ n := by rintro rfl; simpa [hpos] using hu.pos_eq
    rw [Vm.entry_setEntry_of_ne huj, hent₃]
    rcases eq_or_ne u c with rfl | huc
    · rw [hcopy.old j, hent₁]
      split_ifs
      · exact ⟨keptEntry_keep hpu, ppn_keep _⟩
      · exact ⟨.refl hpu, rfl⟩
    · rw [hent₂ u j huc hun]
      exact ⟨.refl hpu, rfl⟩
  case copy =>
    intro _ j hj hpj
    rw [← hent₁] at hpj
    rw [Vm.entry_setEntry_of_ne (Or.inl hnt), hent₃, (hcopy.new j hj).2 hpj, hent₁]
    rw [hent₁] at hpj
    exact ⟨keptEntry_keep hpj, ppn_keep _⟩
  case refs =>
    intro g hg hgpos hgn hcg
    rw [hent₂ t i htc hnt.symm] at hfree
    rw [Vm.pageMap_setEntry]
    refine pagemap_of_alloc_free ha hgn ?_ hfree hcg
    have hsum := h.sum_hit_eq_zero hc (by omega) hg hgpos
    rw [entryCount, if_neg (by omega)] at hsum
    simp [hcopy.counters g (ht ▸ hg), hent₁, hsum]
  case mem =>
    intro g hgpos hgn
    have hgt : g ≠ t := by rintro rfl; simp [hs.pos_eq] at hgpos
    have hgc : g ≠ c := by rintro rfl; simp [hc] at hgpos
    rw [Vm.mem_setEntry_of_ne hgt, (Vm.free_frame hfree).1, hcopy.other g hgc hgn, hmem]

theorem unshared_page (h : Settled base s live pos) (hs : Slot pos t i 3 q)
    (ha : s.alloc = some (n, s₁)) (hs₂ : s₂ = s₁.setFrame n (s₁.mem (ppn (s.entry t i))))
    (hfree : s₂.free (ppn (s₂.entry t i)) = some s₃) :
    Unshared s (s₃.setEntry t i (GenericPagingTable.relink (s₃.entry t i) n)) pos t i 3 n := by
  obtain ⟨hpos, -, -, -⟩ := h.alloc ha
  obtain ⟨hmem, -, -, -, -, -⟩ := Vm.alloc_eq_some ha
  have hne : ∀ {u j d' q'}, Slot pos u j d' q' → u ≠ n := by
    rintro u j d' q' hu rfl
    simpa [hpos] using hu.pos_eq
  have hent₂ : ∀ u j, u ≠ n → s₂.entry u j = s.entry u j := by
    intro u j hun
    rw [hs₂, Vm.entry_setFrame_of_ne hun]
    exact Vm.entry_congr (congrFun hmem u)
  have hent₃ : ∀ u j, u ≠ n → s₃.entry u j = s.entry u j := by
    intro u j hun
    rw [Vm.entry_congr (congrFun (Vm.free_frame hfree).1 u), hent₂ u j hun]
  constructor
  case entry => rw [Vm.entry_setEntry_self, hent₃ t i (hne hs)]
  case kept =>
    intro u j d' q' hu huj hpu
    rw [Vm.entry_setEntry_of_ne huj, hent₃ u j (hne hu)]
    exact ⟨.refl hpu, rfl⟩
  case copy => exact fun h3 => absurd h3 (lt_irrefl 3)
  case refs =>
    intro g _ _ hgn hcg
    rw [hent₂ t i (hne hs)] at hfree
    rw [Vm.pageMap_setEntry]
    exact pagemap_of_alloc_free ha hgn (by rw [hs₂]; rfl) hfree hcg
  case mem =>
    intro g hgpos hgn
    have hgt : g ≠ t := by rintro rfl; simp [hs.pos_eq] at hgpos
    rw [Vm.mem_setEntry_of_ne hgt, (Vm.free_frame hfree).1, hs₂, Vm.mem_setFrame_of_ne hgn, hmem]

theorem unshared (h : Settled base s live pos) (hs : Slot pos t i d q)
    (hp : present (s.entry t i) = true) (hu : AddrSpace.unshare (3 - d) t i s = some s') :
    ∃ n, n < s.pageMap.totalPages ∧ s.pageMap.pagemap n = 0 ∧ Unshared s s' pos t i d n := by
  obtain ⟨n, s₁, s₂, s₃, ha, hs₂, hfree, rfl⟩ := unshare_eq_some hu
  obtain ⟨-, -, hn, hz, -, -⟩ := Vm.alloc_eq_some ha
  refine ⟨n, hn, hz, ?_⟩
  rcases Nat.lt_or_ge d 3 with hd | hd
  · rw [if_neg (by omega)] at hs₂
    exact h.unshared_table hs hd hp ha hs₂ hfree
  · obtain rfl : d = 3 := by have := hs.depth; omega
    rw [if_pos rfl] at hs₂
    exact h.unshared_page hs ha hs₂ hfree

theorem writable_entryAt (h : Settled base s live pos) (hr : r ∈ live) (hv : virt < userPages)
    (hd : d < 3) (he : AddrSpace.entryAt s r virt d = some e) : writable e = true := by
  obtain ⟨t, ht, rfl, hp⟩ := entryAt_eq_some_iff.mp he
  exact ((h.entries (h.frameAt_slot hr hv (by omega) ht) hp).upper hd).2.2.1

theorem keepsAll_of_unshared (h : Settled base s live pos) (hs : Slot pos t i d q)
    (hp : present (s.entry t i) = true) (hn : n < s.pageMap.totalPages)
    (hu : Unshared s s' pos t i d n) (hps : ∀ e, p e → IsShared e) (hnot : ¬ p (s.entry t i)) :
    KeepsAll p s s' pos := by
  have hppn : ppn (s'.entry t i) = n := by
    rw [hu.entry, ppn_relink, Nat.mod_eq_of_lt (lt_of_lt_of_le hn s.pageMap.fits)]
  intro f d' q' hf hd
  refine h.keeps ?_ ?_ (by omega) hd hf (Or.inl rfl)
  · intro u j d'' q'' hslot hpu
    by_cases huj : u = t ∧ j = i
    · obtain ⟨rfl, rfl⟩ := huj
      exact ⟨by rwa [hu.entry, present_relink], fun he => absurd he hnot⟩
    · exact (hu.kept u j d'' q'' hslot (by tauto) hpu).1.mono hps
  · intro u j d'' q'' hslot hpu h3
    by_cases huj : u = t ∧ j = i
    · obtain ⟨rfl, rfl⟩ := huj
      obtain ⟨rfl, -⟩ := hs.unique hslot
      rw [hppn]
      exact Or.inr ((hu.copy h3).mono hps)
    · exact Or.inl (hu.kept u j d'' q'' hslot (by tauto) hpu).2

theorem keepsAll_setWrite (h : Settled base s live pos) (hnot : ¬ p (s.entry t i)) :
    KeepsAll p s (s.setEntry t i (setWrite (s.entry t i) true)) pos := by
  have hkept : ∀ u j, present (s.entry u j) = true → KeptEntry p (s.entry u j)
      ((s.setEntry t i (setWrite (s.entry t i) true)).entry u j) ∧
      ppn ((s.setEntry t i (setWrite (s.entry t i) true)).entry u j) = ppn (s.entry u j) := by
    intro u j hpu
    by_cases huj : u = t ∧ j = i
    · obtain ⟨rfl, rfl⟩ := huj
      rw [Vm.entry_setEntry_self, ppn_setWrite]
      exact ⟨⟨by rwa [present_setWrite], fun he => absurd he hnot⟩, rfl⟩
    · rw [Vm.entry_setEntry_of_ne (by tauto)]
      exact ⟨.refl hpu, rfl⟩
  intro f d' q' hf hd
  exact h.keeps (fun u j _ _ _ hpu => (hkept u j hpu).1)
    (fun u j _ _ _ hpu _ => Or.inl (hkept u j hpu).2) (by omega) hd hf (Or.inl rfl)

theorem keepsAll_self (h : Settled base s live pos) : KeepsAll p s s pos := by
  intro f d' q' hf hd
  exact h.keeps (fun _ _ _ _ _ hpu => .refl hpu) (fun _ _ _ _ _ _ _ => Or.inl rfl) (by omega) hd
    hf (Or.inl rfl)

/-- One step of `triggerCow` keeps the words of shared mappings and the counters of frames that
are not in the user tables, unless the entry itself is selected or names the frame. -/
theorem claimEntry_keeps (h : Settled base s live pos) (hs : Slot pos t i d q)
    (hp : present (s.entry t i) = true) (hps : ∀ e, p e → IsShared e)
    (hrefs : 1 < s.pageMap.getRefs (ppn (s.entry t i)) → ¬ p (s.entry t i))
    (hcow : cowWasWritable (s.entry t i) = true → ¬ p (s.entry t i))
    (hc : AddrSpace.claimEntry (3 - d) t i s = some s') :
    KeepsAll p s s' pos ∧ ∀ g < s.pageMap.totalPages, pos g = none → s.pageMap.pagemap g ≠ 0 →
      (1 < s.pageMap.getRefs (ppn (s.entry t i)) → ppn (s.entry t i) ≠ g) →
      s'.pageMap.pagemap g = s.pageMap.pagemap g := by
  unfold AddrSpace.claimEntry at hc
  dsimp only at hc
  split_ifs at hc with hr hw
  · obtain ⟨n, hn, hz, hu⟩ := h.unshared hs hp hc
    refine ⟨h.keepsAll_of_unshared hs hp hn hu hps (hrefs hr), fun g hg hpos hne hcg => ?_⟩
    exact hu.refs g hg hpos (by rintro rfl; exact hne hz) (hcg hr)
  · cases hc
    have hcw : cowWasWritable (s.entry t i) = true := by
      simp only [Bool.and_eq_true] at hw
      exact hw.2
    exact ⟨h.keepsAll_setWrite (hcow hcw), fun _ _ _ _ _ => rfl⟩
  · cases hc
    exact ⟨h.keepsAll_self, fun _ _ _ _ _ => rfl⟩

end Settled

/-- `triggerCow` claims the entry at depth `d` on the path of `virt`, in the table `t`. -/
structure ClaimStep (live : List ℕ) (r virt d t : ℕ) (s s' : Vm) (base base' : ℕ → ℕ)
    (pos pos' : Positions) : Prop where
  settled : Settled base s live pos
  settled' : Settled base' s' live pos'
  held : ∀ f, base f ≠ 0 → base' f ≠ 0
  depth : d < 4
  frame : frameAt s r virt d = some t
  present_eq : present (s.entry t (tableIndex (3 - d) virt)) = true
  writable_eq : writable (s.entry t (tableIndex (3 - d) virt)) = true
  claim : claimEntry (3 - d) t (tableIndex (3 - d) virt) s = some s'
  claimed : Claimed s s' pos pos' t (tableIndex (3 - d) virt) d

/-- Induction over the entries that `triggerCow` claims on its way down. -/
theorem Settled.triggerCowFrom_induct {P : ℕ → Vm → (ℕ → ℕ) → Positions → Prop} {b : Bool}
    (hstep : ∀ {d t s s' base base' pos pos'},
      ClaimStep live r virt d t s s' base base' pos pos' → P d s base pos →
        P (d + 1) s' base' pos')
    (hl : d + level = 3) (h : Settled base s live pos) (hr : r ∈ live) (hv : virt < userPages)
    (ht : frameAt s r virt d = some t) (hP : P d s base pos)
    (hc : AddrSpace.triggerCowFrom virt level t s = some (b, s')) :
    ∃ k base' pos', Settled base' s' live pos' ∧ P k s' base' pos' ∧ (b = true → k = 4) := by
  induction level generalizing d t s base pos with
  | zero =>
    obtain rfl : d = 3 := by omega
    have hs := h.frameAt_slot hr hv (by omega) ht
    rw [triggerCowFrom_zero] at hc
    split_ifs at hc with hp
    · obtain ⟨s₁, hcl, he⟩ := Option.map_eq_some_iff.mp hc
      cases he
      obtain ⟨base', pos', hset, hclaim, hheld, -⟩ := h.claimEntry hs hp.1 hp.2 hcl
      have hP' := hstep ⟨h, hset, hheld, by decide, ht, hp.1, hp.2, hcl, hclaim⟩ hP
      exact ⟨4, base', pos', hset, hP', fun _ => rfl⟩
    · cases hc
      exact ⟨3, base, pos, h, hP, by simp⟩
  | succ level ih =>
    have hs := h.frameAt_slot hr hv (by omega) ht
    have hd : 3 - d = level + 1 := by omega
    rw [hd] at hs
    rw [triggerCowFrom_succ] at hc
    split_ifs at hc with hp
    · obtain ⟨s₁, hcl, hrec⟩ := Option.bind_eq_some_iff.mp hc
      obtain ⟨-, hsh, hw, -⟩ := (h.entries hs hp).upper (by omega)
      rw [← hd] at hcl hs hp hw hrec
      obtain ⟨base₁, pos₁, h₁, hclaim, hheld, -⟩ := h.claimEntry hs hp hw hcl
      have hchild := (h.frameAt_claimed hr hv (by omega) ht hclaim).2
      have hP₁ := hstep ⟨h, h₁, hheld, by omega, ht, hp, hw, hcl, hclaim⟩ hP
      exact ih (by omega) h₁ hchild hP₁ hrec
    · cases hc
      exact ⟨d, base, pos, h, hP, by simp⟩

/-- What `triggerCow` has done by depth `d`: up to the leaf all shared mappings are kept, then
those of the frame `g`, whose counter stays. -/
structure SparedTo (g : ℕ) (s : Vm) (pos : Positions) (d : ℕ) (u : Vm) (pos' : Positions) :
    Prop where
  reshaped : Reshaped s u pos pos'
  tables : d ≤ 3 → KeepsAll IsShared s u pos
  frame : KeepsAll (SharesFrame g) s u pos
  refs : u.pageMap.getRefs g = s.pageMap.getRefs g

/-- `triggerCow` on the page will not copy the frame `g`. -/
def Spares (s : Vm) (r virt g : ℕ) : Prop :=
  ∀ e ∈ entryAt s r virt 3, shared e = true → ppn e = g → writable e = true →
    s.pageMap.getRefs g ≤ 1

theorem SparedTo.getRefs_leaf {u : Vm} (hsp : SparedTo g s pos 3 u pos') (h : Shape s live pos held)
    (hr : r ∈ live) (hv : virt < userPages) (hspare : Spares s r virt g)
    (he : entryAt u r virt 3 = some e) (hsh : shared e = true) (hppn : ppn e = g)
    (hw : writable e = true) : u.pageMap.getRefs g ≤ 1 := by
  have hx := (hsp.tables le_rfl r 0 0 (h.root.mpr ⟨hr, rfl⟩) (by decide)).entryAt_of_view
    (hsp.reshaped.view_eq h hr hv) hv he hsh
  rw [hsp.refs]
  exact hspare _ hx hsh hppn hw

namespace Settled

/-- One more entry is claimed. -/
theorem sparedTo_claim {u u' : Vm} {base₁ base' : ℕ → ℕ} {pos₁ : Positions}
    (h : Settled base s live pos) (hr : r ∈ live) (hv : virt < userPages)
    (hspare : d = 3 → Spares s r virt g)
    (hcl : ClaimStep live r virt d t u u' base₁ base' pos₁ pos')
    (hforeign : g < u.pageMap.totalPages → pos₁ g = none ∧ u.pageMap.pagemap g ≠ 0)
    (hsp : SparedTo g s pos d u pos₁) : SparedTo g s pos (d + 1) u' pos' := by
  have h₁ := hcl.settled
  have hp := hcl.present_eq
  have hs := h₁.frameAt_slot hr hv hcl.depth hcl.frame
  have hok := h₁.entries hs hp
  set e := u.entry t (tableIndex (3 - d) virt) with hedef
  have hupper : d < 3 → shared e = false := fun h3 => (hok.upper h3).2.1
  -- a shared mapping of `g` is only claimed if its counter is one
  have hleaf : shared e = true → ppn e = g → u.pageMap.getRefs g ≤ 1 := by
    intro hsh hppn
    obtain rfl : d = 3 := by
      have := hcl.depth
      by_contra h3
      have hnot := hupper (by omega)
      simp [hsh] at hnot
    exact hsp.getRefs_leaf h.toShape hr hv (hspare rfl)
      (entryAt_eq_some_iff.mpr ⟨t, hcl.frame, rfl, hp⟩) hsh hppn hcl.writable_eq
  have hne : g < u.pageMap.totalPages → 1 < u.pageMap.getRefs (ppn e) → ppn e ≠ g := by
    intro hg hmany hppn
    rw [hppn] at hmany
    rcases hsh : shared e with _ | _
    · have hchild := hok.child hsh (hppn ▸ hg)
      rw [hppn, (hforeign hg).1] at hchild
      cases hchild
    · exact absurd (hleaf hsh hppn) (not_le.mpr hmany)
  constructor
  case reshaped => exact hsp.reshaped.trans hcl.claimed.toReshaped
  case tables =>
    intro h3
    have hnot : ¬ IsShared e := by simp [IsShared, hupper (by omega)]
    exact (hsp.tables (by omega)).trans
      (h₁.claimEntry_keeps hs hp (fun _ => id) (fun _ => hnot) (fun _ => hnot) hcl.claim).1
      hsp.reshaped.mono
  case frame =>
    refine hsp.frame.trans
      (h₁.claimEntry_keeps hs hp (fun _ => SharesFrame.isShared) ?_ ?_ hcl.claim).1
      hsp.reshaped.mono
    · rintro hmany ⟨hsh, hppn, -⟩
      rw [hppn] at hmany
      exact absurd (hleaf hsh hppn) (not_le.mpr hmany)
    · rintro hcow ⟨-, -, hnot⟩
      simp [hcow] at hnot
  case refs =>
    rw [← hsp.refs, Counters.getRefs, Counters.getRefs, hcl.claimed.total]
    split_ifs with hge
    · rfl
    · have hg : g < u.pageMap.totalPages := not_le.mp hge
      rw [(h₁.claimEntry_keeps (p := fun _ => False) hs hp (fun _ => False.elim) (fun _ => id)
        (fun _ => id) hcl.claim).2 g hg (hforeign hg).1 (hforeign hg).2 (hne hg)]

theorem sparedTo_start (h : Settled base s live pos) : SparedTo g s pos 0 s pos :=
  ⟨h.reshaped_self, fun _ => h.keepsAll_self, h.keepsAll_self, rfl⟩

/-- `triggerCow` keeps a shared mapping of the frame `g` and the counter of `g`, unless it is
called on a shared mapping of `g` while the counter is above one. -/
theorem triggerCow_keeps {b : Bool} {r₀ v₀ : ℕ} (h : Settled base s live pos) (hr₀ : r₀ ∈ live)
    (hv₀ : v₀ < userPages) (he : AddrSpace.entryAt s r₀ v₀ 3 = some e) (hsh : SharesFrame g e)
    (hr : r ∈ live) (hv : virt < userPages) (hspare : Spares s r virt g)
    (hc : AddrSpace.triggerCow r virt s = some (b, s')) :
    KeepsAll (SharesFrame g) s s' pos ∧ s'.pageMap.getRefs g = s.pageMap.getRefs g := by
  have hstep : ∀ {d t u u' base₁ base' pos₁ pos'},
      ClaimStep live r virt d t u u' base₁ base' pos₁ pos' → SparedTo g s pos d u pos₁ →
        SparedTo g s pos (d + 1) u' pos' := by
    intro d t u u' base₁ base' pos₁ pos' hcl hsp
    have he₁ := hsp.frame.entryAt h.toShape hr₀ hv₀ he hsh
    exact h.sparedTo_claim hr hv (fun _ => hspare) hcl
      (hcl.settled.pos_of_sharesFrame hr₀ hv₀ he₁ hsh) hsp
  obtain ⟨k, base', pos', -, hsp, -⟩ :=
    h.triggerCowFrom_induct (d := 0) (P := fun d u _ pos' => SparedTo g s pos d u pos') hstep rfl
      hr hv rfl h.sparedTo_start hc
  exact ⟨hsp.frame, hsp.refs⟩

/-- `triggerCow` copies the frame of a writable shared mapping if its counter is above one. -/
theorem triggerCow_copies {b : Bool} (h : Settled base s live pos) (hr : r ∈ live)
    (hv : virt < userPages) (he : AddrSpace.entryAt s r virt 3 = some e) (hsh : SharesFrame g e)
    (hw : writable e = true) (hmany : 1 < s.pageMap.getRefs g)
    (hc : AddrSpace.triggerCow r virt s = some (b, s')) :
    ∃ e', AddrSpace.entryAt s' r virt 3 = some e' ∧ ppn e' ≠ g := by
  have hstep : ∀ {d t u u' base₁ base' pos₁ pos'},
      ClaimStep live r virt d t u u' base₁ base' pos₁ pos' →
      ((d < 4 → SparedTo g s pos d u pos₁) ∧
        (d = 4 → ∃ e', AddrSpace.entryAt u r virt 3 = some e' ∧ ppn e' ≠ g)) →
      (d + 1 < 4 → SparedTo g s pos (d + 1) u' pos') ∧
        (d + 1 = 4 → ∃ e', AddrSpace.entryAt u' r virt 3 = some e' ∧ ppn e' ≠ g) := by
    rintro d t u u' base₁ base' pos₁ pos' hcl ⟨hsp, -⟩
    replace hsp := hsp hcl.depth
    have he₁ := hsp.frame.entryAt h.toShape hr hv he hsh
    have h₁ := hcl.settled
    refine ⟨fun hd => ?_, fun hd => ?_⟩
    · exact h.sparedTo_claim hr hv (fun h3 => by omega) hcl
        (h₁.pos_of_sharesFrame hr hv he₁ hsh) hsp
    · obtain rfl : d = 3 := by omega
      obtain ⟨t', ht', hte, -⟩ := entryAt_eq_some_iff.mp he₁
      cases hcl.frame.symm.trans ht'
      have hcase := hcl.claim
      rw [AddrSpace.claimEntry, hte, hsh.2.1, if_pos (by rwa [hsp.refs])] at hcase
      obtain ⟨n, hn, hz, hu⟩ := h₁.unshared (h₁.frameAt_slot hr hv (by decide) hcl.frame)
        hcl.present_eq hcase
      have hpath := (h₁.frameAt_claimed hr hv (by decide) hcl.frame hcl.claimed).1
      refine ⟨_, entryAt_eq_some_iff.mpr ⟨t, hpath, rfl, hcl.claimed.present_eq⟩, ?_⟩
      rw [hu.entry, ppn_relink, Nat.mod_eq_of_lt (lt_of_lt_of_le hn u.pageMap.fits)]
      rintro rfl
      rw [← hsp.refs, Counters.getRefs, hz] at hmany
      split_ifs at hmany <;> simp at hmany
  obtain ⟨k, base', pos', -, hP, hk⟩ := h.triggerCowFrom_induct (d := 0)
    (P := fun d u _ pos' => (d < 4 → SparedTo g s pos d u pos') ∧
      (d = 4 → ∃ e', AddrSpace.entryAt u r virt 3 = some e' ∧ ppn e' ≠ g))
    hstep rfl hr hv rfl ⟨fun _ => h.sparedTo_start, by simp⟩ hc
  refine hP.2 (hk ?_)
  -- the call succeeds, since the page may be written
  obtain ⟨-, -, -, -, hb, -⟩ := h.triggerCow hr hv hc
  obtain ⟨e₀, e₁, e₂, hwalk⟩ := exists_walk he
  refine hb.mpr ⟨pageOf s [e₀, e₁, e₂, e], by simp [view, hwalk], ?_⟩
  obtain ⟨x₀, x₁, x₂, x₃, h₀, h₁, h₂, -, hx⟩ := walk_eq_some_iff.mp hwalk
  cases hx
  simp [pageOf, hw, h.writable_entryAt hr hv (by decide) h₀,
    h.writable_entryAt hr hv (by decide) h₁, h.writable_entryAt hr hv (by decide) h₂]

theorem sum_hit_self (h : Settled base s live pos) (hc : pos c = some (d, q)) (hd : d < 4) :
    ∑ j ∈ Finset.range (entryCount (3 - d)), hit (counted (s.entry c j)) c = 0 := by
  refine Finset.sum_eq_zero fun j hj => hit_of_ne fun htj => ?_
  have hs : Slot pos c j d q := ⟨hc, hd, Finset.mem_range.mp hj⟩
  obtain ⟨d', q', hs', hpos⟩ := h.pos_of_target (h.slot_mem hs) htj (h.bounded hc).1
  obtain ⟨rfl, rfl⟩ := hs.unique hs'
  rw [hc] at hpos
  simp at hpos

/-- Unsharing only fails for want of a free frame. -/
theorem exists_unshare (h : Settled base s live pos) (hs : Slot pos t i d q)
    (hp : present (s.entry t i) = true) (hrefs : 1 < s.pageMap.getRefs (ppn (s.entry t i)))
    (hfree : 0 < s.pageMap.freeFrames) : ∃ s', AddrSpace.unshare (3 - d) t i s = some s' := by
  obtain ⟨n, m, hm⟩ := PageMap.exists_alloc hfree
  have ha : s.alloc = some (n, { s with pageMap := m }) := by simp [Vm.alloc, hm]
  obtain ⟨hpos, -, -, -⟩ := h.alloc ha
  obtain ⟨hmem, -, -, hz, ht, hpm⟩ := Vm.alloc_eq_some ha
  set s₁ : Vm := { s with pageMap := m } with hs₁
  set c := ppn (s.entry t i) with hcdef
  have hlt : c < s.pageMap.totalPages := by
    by_contra hge
    simp [Counters.getRefs, not_lt.mp hge] at hrefs
  have hne : s.pageMap.pagemap c ≠ 0 := by
    intro hz'
    rw [Counters.getRefs, hz'] at hrefs
    split_ifs at hrefs <;> simp at hrefs
  have hcn : c ≠ n := by intro he; exact hne (he ▸ hz)
  have hnt : n ≠ t := by rintro rfl; simpa [hpos] using hs.pos_eq
  have hc₁ : s₁.pageMap.pagemap c = s.pageMap.pagemap c := by
    rw [hpm, Function.update_of_ne hcn]
  -- neither copy touches the entry or the counter of the frame that it leaves behind
  have hcopy : ∀ s₂, s₂ = (if 3 - d = 0 then s₁.setFrame n (s₁.mem c)
      else (List.range 512).foldl (copyEntry c n) s₁) →
      s₂.entry t i = s.entry t i ∧ s₂.pageMap.pagemap c = s.pageMap.pagemap c := by
    rintro s₂ rfl
    split_ifs with h3
    · exact ⟨by rw [Vm.entry_setFrame_of_ne hnt.symm]; rfl, hc₁⟩
    · have hok := h.entries hs hp
      have hpc := hok.child (hok.upper (by omega)).2.1 hlt
      have hcopied := copiedUpTo_foldl_copyEntry s₁ hcn 512
      have htc : t ≠ c := by
        intro he
        have := hs.pos_eq
        rw [he, hpc] at this
        simp at this
      have hsum := h.sum_hit_self hpc (by omega)
      rw [entryCount, if_neg (by omega)] at hsum
      refine ⟨by rw [Vm.entry_congr (hcopied.other t htc hnt.symm)]; rfl, ?_⟩
      rw [hcopied.counters c (ht ▸ hlt), hc₁, show ∑ j ∈ Finset.range 512,
        hit (counted (s₁.entry c j)) c = 0 from hsum]
      simp
  obtain ⟨hent, hcount⟩ := hcopy _ rfl
  obtain ⟨m', hm'⟩ := PageMap.free_of_pos fun _ => hcount ▸ hne
  rw [AddrSpace.unshare, ha]
  simp only [Option.bind_eq_bind, Option.bind_some, ← hcdef, Vm.free, hent, hm', Option.map_some,
    Option.pure_def, Option.some.injEq, exists_eq']

theorem exists_claimEntry (h : Settled base s live pos) (hs : Slot pos t i d q)
    (hp : present (s.entry t i) = true) (hfree : 0 < s.pageMap.freeFrames) :
    ∃ s', AddrSpace.claimEntry (3 - d) t i s = some s' ∧
      s.pageMap.freeFrames ≤ s'.pageMap.freeFrames + 1 := by
  unfold AddrSpace.claimEntry
  dsimp only
  split_ifs with hrefs hw
  · obtain ⟨s', hu⟩ := h.exists_unshare hs hp hrefs hfree
    obtain ⟨n, hn, hz, hun⟩ := h.unshared hs hp hu
    refine ⟨s', hu, ?_⟩
    have hsub : (Finset.range s.pageMap.totalPages).filter (fun f => s.pageMap.pagemap f = 0) ⊆
        insert n ((Finset.range s'.pageMap.totalPages).filter
          fun f => s'.pageMap.pagemap f = 0) := by
      intro f hf
      simp only [Finset.mem_filter, Finset.mem_range] at hf
      simp only [Finset.mem_insert, Finset.mem_filter, Finset.mem_range, (unshare_frame hu).1]
      rcases eq_or_ne f n with rfl | hfn
      · exact Or.inl rfl
      · have hcf : ppn (s.entry t i) ≠ f := by
          rintro rfl
          rw [Counters.getRefs, hf.2] at hrefs
          split_ifs at hrefs <;> simp at hrefs
        exact Or.inr ⟨hf.1, (hun.refs f hf.1 (h.pos_none_of_free hf.1 hf.2).1 hfn hcf).trans hf.2⟩
    exact (Finset.card_le_card hsub).trans (Finset.card_insert_le _ _)
  · exact ⟨_, rfl, Nat.le_succ _⟩
  · exact ⟨_, rfl, Nat.le_succ _⟩

theorem exists_triggerCowFrom (hl : d + level = 3) (h : Settled base s live pos) (hr : r ∈ live)
    (hv : virt < userPages) (ht : frameAt s r virt d = some t)
    (hfree : level < s.pageMap.freeFrames) :
    ∃ b s', AddrSpace.triggerCowFrom virt level t s = some (b, s') := by
  induction level generalizing d t s base pos with
  | zero =>
    obtain rfl : d = 3 := by omega
    have hs := h.frameAt_slot hr hv (by omega) ht
    rw [triggerCowFrom_zero]
    split_ifs with hp
    · obtain ⟨s', hc, -⟩ := h.exists_claimEntry hs hp.1 hfree
      exact ⟨true, s', by simp only [Nat.sub_self] at hc; rw [hc]; rfl⟩
    · exact ⟨false, s, rfl⟩
  | succ level ih =>
    have hs := h.frameAt_slot hr hv (by omega) ht
    have hd : 3 - d = level + 1 := by omega
    rw [triggerCowFrom_succ, ← hd]
    split_ifs with hp
    · obtain ⟨s₁, hcl, hle⟩ := h.exists_claimEntry hs hp (by omega)
      have hw := ((h.entries hs hp).upper (by omega)).2.2.1
      obtain ⟨base₁, pos₁, h₁, hclaim, -, -⟩ := h.claimEntry hs hp hw hcl
      have hchild := (h.frameAt_claimed hr hv (by omega) ht hclaim).2
      obtain ⟨b, s', hc⟩ := ih (by omega) h₁ hchild (by omega)
      exact ⟨b, s', by rw [hcl]; exact hc⟩
    · exact ⟨false, s, rfl⟩

theorem exists_triggerCow (h : Settled base s live pos) (hr : r ∈ live) (hv : virt < userPages)
    (hfree : 3 < s.pageMap.freeFrames) : ∃ b s', AddrSpace.triggerCow r virt s = some (b, s') :=
  h.exists_triggerCowFrom (d := 0) rfl hr hv rfl hfree

/-- `clone` keeps all shared mappings, and the counters of frames that are not in the user
tables. -/
theorem clone_keeps (h : Settled base s live pos) (hr : r ∈ live)
    (hc : AddrSpace.clone r s = some (n, s')) :
    KeepsAll IsShared s s' pos ∧ Keeps IsShared s s' 4 r n ∧
      ∀ g < s.pageMap.totalPages, pos g = none → s.pageMap.pagemap g ≠ 0 →
        s'.pageMap.pagemap g = s.pageMap.pagemap g := by
  obtain ⟨s₁, hcr, rfl⟩ := clone_eq_some hc
  obtain ⟨hrn, hcopy⟩ := h.clone_copied hr hcr
  obtain ⟨hpos, -⟩ := h.createHeld hcr
  obtain ⟨hmem, -, htotal, -⟩ := h.create_frame hcr
  obtain ⟨s₀, ha, hpm, -, -, -⟩ := mem_create hcr
  have hroot : pos r = some (0, 0) := h.root.mpr ⟨hr, rfl⟩
  have hent : ∀ u j, u ≠ n → s₁.entry u j = s.entry u j := fun u _ hu => Vm.entry_congr (hmem u hu)
  have hkept : ∀ u j, u ≠ n → present (s.entry u j) = true → KeptEntry IsShared (s.entry u j)
      (((List.range 256).foldl (cloneEntry r n) s₁).entry u j) ∧
      ppn (((List.range 256).foldl (cloneEntry r n) s₁).entry u j) = ppn (s.entry u j) := by
    intro u j hun hpu
    rcases eq_or_ne u r with rfl | hur
    · rw [hcopy.old j, hent u j hun]
      split_ifs
      · exact ⟨keptEntry_keep hpu, ppn_keep _⟩
      · exact ⟨.refl hpu, rfl⟩
    · rw [Vm.entry_congr (hcopy.other u hur hun), hent u j hun]
      exact ⟨.refl hpu, rfl⟩
  have hne : ∀ {u j d q}, Slot pos u j d q → u ≠ n := by
    rintro u j d q hu rfl
    simpa [hpos] using hu.pos_eq
  have hkeeps : ∀ {f f' d q}, pos f = some (d, q) → d < 4 → (f' = f ∨
      KeptRow IsShared s ((List.range 256).foldl (cloneEntry r n) s₁) (entryCount (3 - d)) f f') →
      Keeps IsShared s ((List.range 256).foldl (cloneEntry r n) s₁) (4 - d) f f' :=
    fun hf hd => h.keeps (fun u j _ _ hu hpu => (hkept u j (hne hu) hpu).1)
      (fun u j _ _ hu hpu _ => Or.inl (hkept u j (hne hu) hpu).2) (by omega) hd hf
  refine ⟨fun f d q hf hd => hkeeps hf hd (Or.inl rfl),
    hkeeps hroot (by decide) (Or.inr fun j hj hpj => ?_), fun g hg hgpos hgne => ?_⟩
  · rw [← hent r j hrn] at hpj
    rw [(hcopy.new j hj).2 hpj, hent r j hrn]
    rw [hent r j hrn] at hpj
    exact ⟨keptEntry_keep hpj, ppn_keep _⟩
  · obtain ⟨-, -, -, hz, ht₀, hp⟩ := Vm.alloc_eq_some ha
    have hgn : g ≠ n := by rintro rfl; exact hgne hz
    have hsum := h.sum_hit_eq_zero hroot (by decide) hg hgpos
    rw [show entryCount (3 - 0) = 256 from if_pos rfl] at hsum
    simp [hcopy.counters g (htotal ▸ hg), hent r _ hrn, hsum, hpm, hp, hgn]

end Settled

/-- The path of a page that has just been mapped ends in the entry that `map` has written. -/
theorem entryAt_of_walkFrom {es : List GenericPagingTable} (hl : d + level = 3)
    (ht : frameAt s r virt d = some t) (hw : walkFrom s virt level t = some (es ++ [e])) :
    entryAt s r virt 3 = some e := by
  induction level generalizing d t es with
  | zero =>
    obtain rfl : d = 3 := by omega
    rw [walkFrom_zero] at hw
    split_ifs at hw with hp
    have hlast : [] ++ [s.entry t (tableIndex 0 virt)] = es ++ [e] := Option.some.inj hw
    obtain ⟨-, he⟩ := List.append_inj' hlast rfl
    cases he
    exact entryAt_eq_some_iff.mpr ⟨t, ht, rfl, hp⟩
  | succ level ih =>
    rw [walkFrom_succ] at hw
    split_ifs at hw with hp
    obtain ⟨es', hw', he⟩ := Option.map_eq_some_iff.mp hw
    have hd : 3 - d = level + 1 := by omega
    have hnext : frameAt s r virt (d + 1) =
        some (ppn (s.entry t (tableIndex (level + 1) virt))) :=
      frameAt_succ_eq_some_iff.mpr ⟨t, ht, by rwa [hd], by rw [hd]⟩
    cases es with
    | nil =>
      simp only [List.nil_append, List.cons.injEq] at he
      rw [he.2] at hw'
      cases level <;> simp only [walkFrom_zero, walkFrom_succ] at hw' <;> split_ifs at hw' <;>
        simp at hw'
    | cons x es =>
      simp only [List.cons_append, List.cons.injEq] at he
      exact ih (by omega) hnext (he.2 ▸ hw')

theorem Settled.entryAt_map (h : Settled base s live pos) (hr : r ∈ live) (hv : virt < userPages)
    (hm : AddrSpace.map r virt phys flags s = some s') :
    entryAt s' r virt 3 = some (ofPage phys flags) := by
  obtain ⟨k, u, -, hk, hu, hfree, hmap⟩ := mapFrom_descend (d := 0) rfl rfl hm
  have hs := h.frameAt_slot hr hv (by omega) hu
  have hg := mapFrom_grown (h.counter_ne_zero hs.pos_eq) hfree hmap
  have hu' : frameAt s' r virt k = some u := by
    rw [← hu]
    refine frameAt_congr fun j hj t ht => ?_
    have hst := h.frameAt_slot hr hv (by omega) ht
    rw [hg.other t _ (h.counter_ne_zero hst.pos_eq) (Or.inl (hs.ne_of_depth hst hj))]
    exact ⟨rfl, fun _ => rfl⟩
  obtain ⟨es, hw, -⟩ := hg.chain
  exact entryAt_of_walkFrom (by omega) hu' hw

end AddrSpace

end Koerix
