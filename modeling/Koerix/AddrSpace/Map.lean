import Koerix.AddrSpace.Update

/-! # Creating and mapping

`create` adds an empty address space. `map` walks down to the first table whose
entry for the page is absent, and from there builds a fresh chain of tables
that ends in the new page: that one entry is all that changes in existing
tables, whoever else may be sharing the table it is in.
-/

namespace Koerix

open GenericPagingTable InDegree

namespace AddrSpace

variable {s s' : Vm} {live : List ℕ} {pos : Positions} {held base base' : ℕ → ℕ}
  {f t i d q n r virt phys : ℕ} {flags : MapFlags}

theorem Settled.counter_ne_zero (h : Settled base s live pos) {p : ℕ × ℕ} (hp : pos f = some p) :
    s.pageMap.pagemap f ≠ 0 := by
  intro hz
  have := (h.pos_none_of_free (h.bounded hp).1 hz).1
  simp [hp] at this

theorem mem_create (h : create s = some (n, s')) : ∃ s₁, s.alloc = some (n, s₁) ∧
    s'.pageMap = s₁.pageMap ∧ s'.kernelPml4 = s₁.kernelPml4 ∧
    (∀ t, t ≠ n → s'.mem t = s₁.mem t) ∧ ∀ i < 256, s'.entry n i = 0 := by
  simp only [create, Option.bind_eq_bind, Option.bind_eq_some_iff, Option.pure_def,
    Option.some.injEq, Prod.mk.injEq, Prod.exists] at h
  obtain ⟨f, s₁, ha, rfl, rfl⟩ := h
  refine ⟨s₁, ha, ?_⟩
  unfold updateKernelMappings
  split
  · refine ⟨rfl, rfl, fun t ht => Vm.mem_setFrame_of_ne ht, fun i _ => ?_⟩
    simp [Vm.entry]
  · refine ⟨rfl, rfl, fun t ht => ?_, fun i hi => ?_⟩
    · rw [Vm.mem_setFrame_of_ne ht, Vm.mem_setFrame_of_ne ht]
    · simp [Vm.entry, show ¬ 256 ≤ i by omega]

theorem Settled.createHeld (h : Settled base s live pos) (hc : create s = some (n, s')) :
    pos n = none ∧ base n = 0 ∧ n < s'.pageMap.totalPages ∧ Vacant s' pos n ∧
      Settled (Function.update base n 1) s' live pos ∧
      ∀ i < 256, present (s'.entry n i) = false := by
  obtain ⟨s₁, ha, hpm, -, hmem, hzero⟩ := mem_create hc
  obtain ⟨hpos, hb, hvac, h₁⟩ := h.alloc ha
  obtain ⟨-, -, hn, -, ht, -⟩ := Vm.alloc_eq_some ha
  have hmem' : ∀ t, pos t ≠ none → s'.mem t = s₁.mem t :=
    fun t ht => hmem t (by rintro rfl; exact ht hpos)
  refine ⟨hpos, hb, by rwa [hpm, ht], hvac.congr hmem', ?_, fun i hi => ?_⟩
  · exact h₁.setOutside hpm hmem'
  · rw [hzero i hi]
    exact present_zero

theorem Settled.newRoot (h : Settled (Function.update base n 1) s live pos) (hb : base n = 0)
    (hfew : live.length + 1 < 256)
    (hshape : Shape s' (live ++ [n]) (Function.update pos n (some (0, 0)))
      (restHeld (Function.update base n 1) live)) :
    Settled base s' (live ++ [n]) (Function.update pos n (some (0, 0))) := by
  have hpos : pos n = none := h.pos_none_of_base (by simp)
  have hl := h.notMem_live_of_pos_none hpos
  have hheld : restHeld (Function.update base n 1) live = restHeld base (live ++ [n]) := by
    funext f
    rcases eq_or_ne f n with rfl | hne
    · simp [restHeld, hb, hl]
    · simp [restHeld, hne]
  exact {
    toShape := hheld ▸ hshape
    nodup := by
      rw [List.nodup_append]
      refine ⟨h.nodup, by simp, ?_⟩
      rintro a ha b hb rfl
      exact hl (List.mem_singleton.mp hb ▸ ha)
    few := by simpa using hfew
    base_lt := fun f => by
      rcases eq_or_ne f n with rfl | hne
      · simp [hb]
      · simpa [hne] using h.base_lt f
    base_pos := fun {f p} hf => by
      rcases eq_or_ne f n with rfl | hne
      · exact hb
      · rw [Function.update_of_ne hne] at hf
        exact (Function.update_of_ne hne 1 base) ▸ h.base_pos hf }

theorem mem_append_singleton_root (h : Shape s live pos held) (f q : ℕ) :
    Function.update pos n (some (0, 0)) f = some (0, q) ↔ f ∈ live ++ [n] ∧ q = 0 := by
  rcases eq_or_ne f n with rfl | hne
  · simp [eq_comm]
  · rw [Function.update_of_ne hne]
    simpa [hne] using h.root

theorem Settled.create (h : Settled base s live pos) (hfew : live.length + 1 < 256)
    (hc : create s = some (n, s')) :
    pos n = none ∧ Settled base s' (live ++ [n]) (Function.update pos n (some (0, 0))) := by
  obtain ⟨hpos, hb, hn, hvac, h₁, hempty⟩ := h.createHeld hc
  exact ⟨hpos, h₁.newRoot hb hfew <| h₁.adopt hn hpos hvac h₁.held_fresh.symm.le (Nat.zero_le 4)
    (fun j hj => hempty j hj) (mem_append_singleton_root h₁.toShape)⟩

/-- An entry that `map` has written. -/
def Written (total phys : ℕ) (flags : MapFlags) (e : GenericPagingTable) : Prop :=
  e = ofPage phys flags ∨ ∃ n < total, e = ofTable n

/-- A fresh chain for `virt` has grown from the entry of the table `t` at the given level, and
nothing else has changed in frames that were in use. -/
structure Grown (s s' : Vm) (virt phys : ℕ) (flags : MapFlags) (level t : ℕ) : Prop where
  other : ∀ u j, s.pageMap.pagemap u ≠ 0 → u ≠ t ∨ j ≠ tableIndex level virt →
    s'.entry u j = s.entry u j
  used : ∀ u, s.pageMap.pagemap u ≠ 0 → s'.pageMap.pagemap u ≠ 0
  total : s'.pageMap.totalPages = s.pageMap.totalPages
  kernel : s'.kernelPml4 = s.kernelPml4
  chain : ∃ es, walkFrom s' virt level t = some (es ++ [ofPage phys flags]) ∧
    ∀ e ∈ es, ∃ n < s.pageMap.totalPages, e = ofTable n

theorem head_of_chain {level : ℕ} {es : List GenericPagingTable}
    (h : walkFrom s' virt level t = some (es ++ [ofPage phys flags]))
    {total : ℕ} (hes : ∀ e ∈ es, ∃ n < total, e = ofTable n) :
    Written total phys flags (s'.entry t (tableIndex level virt)) := by
  have hhead : ∃ tl, es ++ [ofPage phys flags] = s'.entry t (tableIndex level virt) :: tl := by
    cases level with
    | zero =>
      rw [walkFrom] at h
      split_ifs at h
      exact ⟨[], (Option.some.inj h).symm⟩
    | succ level =>
      rw [walkFrom] at h
      split_ifs at h
      obtain ⟨tl, -, he⟩ := Option.map_eq_some_iff.mp h
      exact ⟨tl, he.symm⟩
  obtain ⟨tl, ht⟩ := hhead
  cases es with
  | nil =>
    simp only [List.nil_append, List.cons.injEq] at ht
    exact Or.inl ht.1.symm
  | cons e es =>
    simp only [List.cons_append, List.cons.injEq] at ht
    exact Or.inr (ht.1 ▸ hes e List.mem_cons_self)

/-- From an absent entry `map` grows a chain of fresh tables. -/
theorem mapFrom_grown {level : ℕ} (ht : s.pageMap.pagemap t ≠ 0)
    (hfree : present (s.entry t (tableIndex level virt)) = false)
    (hmap : mapFrom virt phys flags level t s = some s') :
    Grown s s' virt phys flags level t := by
  induction level generalizing t s with
  | zero =>
    simp only [mapFrom, hfree, Bool.false_eq_true, if_false, Option.some.injEq] at hmap
    subst hmap
    exact {
      other := fun _ _ _ => Vm.entry_setEntry_of_ne
      used := fun _ => id
      total := rfl
      kernel := rfl
      chain := ⟨[], by simp [walkFrom], by simp⟩ }
  | succ level ih =>
    simp only [mapFrom, hfree, Bool.false_eq_true, if_false, Option.bind_eq_bind,
      Option.bind_eq_some_iff, Prod.exists] at hmap
    obtain ⟨n, s₁, ha, hmap⟩ := hmap
    obtain ⟨hmem, hk, hn, hz, htot, hp⟩ := Vm.alloc_eq_some ha
    have hppn : ppn (ofTable n) = n := by
      rw [ppn_ofTable, Nat.mod_eq_of_lt (lt_of_lt_of_le hn s.pageMap.fits)]
    have htn : t ≠ n := by rintro rfl; exact ht hz
    rw [Vm.entry_setEntry_self, hppn] at hmap
    have hused : ∀ u, s.pageMap.pagemap u ≠ 0 → s₁.pageMap.pagemap u ≠ 0 := by
      intro u hu
      have hne : u ≠ n := by rintro rfl; exact hu hz
      rwa [hp, Function.update_of_ne hne]
    have hfree₂ : present (((s₁.setFrame n fun _ => 0).setEntry t (tableIndex (level + 1) virt)
        (ofTable n)).entry n (tableIndex level virt)) = false := by
      rw [Vm.entry_setEntry_of_ne (Or.inl htn.symm)]
      simp [Vm.entry]
    have hg := ih (by simp [hp]) hfree₂ hmap
    -- existing frames differ from the fresh one, so the rest of the walk leaves them alone
    have hkeep : ∀ u j, s.pageMap.pagemap u ≠ 0 → s'.entry u j =
        ((s₁.setFrame n fun _ => 0).setEntry t (tableIndex (level + 1) virt)
          (ofTable n)).entry u j :=
      fun u j hu => hg.other u j (hused u hu) (Or.inl (by rintro rfl; exact hu hz))
    have ht' : s'.entry t (tableIndex (level + 1) virt) = ofTable n :=
      (hkeep t _ ht).trans Vm.entry_setEntry_self
    have htot₂ : ((s₁.setFrame n fun _ => 0).setEntry t (tableIndex (level + 1) virt)
        (ofTable n)).pageMap.totalPages = s.pageMap.totalPages := htot
    obtain ⟨es, hwalk, hes⟩ := hg.chain
    refine {
      other := ?_
      used := fun u hu => hg.used u (hused u hu)
      total := hg.total.trans htot
      kernel := hg.kernel.trans hk
      chain := ⟨ofTable n :: es, by simp [walkFrom, ht', hppn, hwalk], ?_⟩ }
    · intro u j hu hne
      rw [hkeep u j hu, Vm.entry_setEntry_of_ne hne,
        Vm.entry_setFrame_of_ne (by rintro rfl; exact hu hz)]
      exact Vm.entry_congr (congrFun hmem u)
    · rintro e (_ | ⟨_, he⟩)
      · exact ⟨n, hn, rfl⟩
      · exact htot₂ ▸ hes e he

/-- `map` goes down the path of `virt` to its first absent entry. -/
theorem mapFrom_descend {level : ℕ} (hl : d + level = 3) (ht : frameAt s r virt d = some t)
    (hmap : mapFrom virt phys flags level t s = some s') :
    ∃ k u, d ≤ k ∧ k ≤ 3 ∧ frameAt s r virt k = some u ∧
      present (s.entry u (tableIndex (3 - k) virt)) = false ∧
      mapFrom virt phys flags (3 - k) u s = some s' := by
  induction level generalizing d t with
  | zero =>
    obtain rfl : d = 3 := by omega
    refine ⟨3, t, le_rfl, le_rfl, ht, ?_, hmap⟩
    by_contra hp
    simp [mapFrom, Bool.not_eq_false _ |>.mp hp] at hmap
  | succ level ih =>
    rcases hp : present (s.entry t (tableIndex (level + 1) virt)) with _ | _
    · have hd : 3 - d = level + 1 := by omega
      exact ⟨d, t, le_rfl, by omega, ht, by rwa [hd], by rwa [hd]⟩
    · have ht' : frameAt s r virt (d + 1) = some (ppn (s.entry t (tableIndex (level + 1) virt))) :=
        frameAt_succ_eq_some_iff.mpr ⟨t, ht, by rwa [show 3 - d = level + 1 by omega],
          by rw [show 3 - d = level + 1 by omega]⟩
      simp only [mapFrom, hp, if_true] at hmap
      obtain ⟨k, u, hk, hrest⟩ := ih (by omega) ht' hmap
      exact ⟨k, u, by omega, hrest⟩

/-- The frame to be mapped, and what mapping it does to the references of the kernel: a frame
fresh from `alloc` passes from the caller to the page table, a shared mapping of a frame that
the kernel holds (video memory) takes no reference, and a frame outside the page map has no
counter. -/
inductive Payload (s : Vm) (pos : Positions) (phys : ℕ) (flags : MapFlags) :
    (ℕ → ℕ) → (ℕ → ℕ) → Prop
  | fresh {base : ℕ → ℕ} : base phys = 0 → phys < s.pageMap.totalPages → flags.shared = false →
      Vacant s pos phys → Payload s pos phys flags (Function.update base phys 1) base
  | device {base : ℕ → ℕ} : flags.shared = true → phys < s.pageMap.totalPages → 0 < base phys →
      Payload s pos phys flags base base
  | foreign {base : ℕ → ℕ} : s.pageMap.totalPages ≤ phys → phys < 2 ^ 28 →
      Payload s pos phys flags base base

/-- Positions have been added, for tables that hold nothing but what `map` has written. -/
structure Extended (s s' : Vm) (pos pos' : Positions) (phys : ℕ) (flags : MapFlags) : Prop where
  mono : ∀ f p, pos f = some p → pos' f = some p
  fresh : ∀ u j d q, Slot pos' u j d q → pos u = none → present (s'.entry u j) = true →
    Written s.pageMap.totalPages phys flags (s'.entry u j)

theorem Settled.linkPage {pos : Positions} (h : Settled base s live pos)
    (hpay : Payload s pos phys flags base base') (hs : Slot pos t i 3 q)
    (hfree : present (s.entry t i) = false) :
    ∃ pos', Settled base' (s.setEntry t i (ofPage phys flags)) live pos' ∧
      (∀ f p, pos f = some p → pos' f = some p) ∧
      ∀ f d q, pos' f = some (d, q) → d < 4 → pos f = some (d, q) := by
  cases hpay with
  | fresh hb hlt hsh hvac =>
    have hppn : ppn (ofPage phys flags) = phys := by
      rw [ppn_ofPage, Nat.mod_eq_of_lt (lt_of_lt_of_le hlt s.pageMap.fits)]
    have hpos : pos phys = none := h.pos_none_of_base (by simp)
    refine ⟨_, h.link hb hlt hvac hs hfree (fun j hj => by simp [width] at hj) (by simp) hppn
      (by simpa using hsh) (fun h3 => absurd h3 (lt_irrefl 3)), fun f p hf => ?_,
      fun f d' q' hf hd => ?_⟩
    · have hne : f ≠ phys := by rintro rfl; simp [hpos] at hf
      rwa [Function.update_of_ne hne]
    · have hne : f ≠ phys := by rintro rfl; simp at hf; omega
      rwa [Function.update_of_ne hne] at hf
  | device hsh hlt hb =>
    have hppn : ppn (ofPage phys flags) = phys := by
      rw [ppn_ofPage, Nat.mod_eq_of_lt (lt_of_lt_of_le hlt s.pageMap.fits)]
    have hdev : shared (ofPage phys flags) = true ∧ pos phys = none ∧
        0 < restHeld base live phys :=
      ⟨by simpa using hsh, h.pos_none_of_base hb.ne', Nat.add_pos_left hb _⟩
    exact ⟨pos, { h with
      toShape := h.linkDevice hs hfree fun _ => by rwa [hppn] }, fun _ _ => id,
      fun _ _ _ hf _ => hf⟩
  | foreign hge hlt =>
    have hppn : ppn (ofPage phys flags) = phys := by rw [ppn_ofPage, Nat.mod_eq_of_lt hlt]
    exact ⟨pos, { h with
      toShape := h.linkDevice hs hfree fun hlt => absurd hlt (by rw [hppn]; omega) },
      fun _ _ => id, fun _ _ _ hf _ => hf⟩

theorem Settled.linkTable (h : Settled base s live pos) (hs : Slot pos t i d q)
    (hfree : present (s.entry t i) = false) {s₁ : Vm} (ha : s.alloc = some (n, s₁)) :
    pos n = none ∧ Settled base
        ((s₁.setFrame n fun _ => 0).setEntry t i (ofTable n)) live
        (Function.update pos n (some (d + 1, 512 * q + i))) := by
  obtain ⟨hpos, hb, hvac, h₁⟩ := h.alloc ha
  obtain ⟨hmem, -, hn, -, ht, -⟩ := Vm.alloc_eq_some ha
  have htn : t ≠ n := by rintro rfl; simpa [hpos] using hs.pos_eq
  have hmem' : ∀ u, pos u ≠ none → (s₁.setFrame n fun _ => 0).mem u = s₁.mem u :=
    fun u hu => Vm.mem_setFrame_of_ne (by rintro rfl; exact hu hpos)
  have h₂ : Settled (Function.update base n 1) (s₁.setFrame n fun _ => 0) live pos :=
    h₁.setOutside rfl hmem'
  have hlt : n < 2 ^ 28 := lt_of_lt_of_le hn s.pageMap.fits
  refine ⟨hpos, h₂.link hb (by simpa [ht] using hn) (hvac.congr hmem') hs ?_ (fun j _ => ?_)
    (by simp)
    (by rw [ppn_ofTable, Nat.mod_eq_of_lt hlt]) (by simp) (fun _ => by simp [writable])⟩
  · rwa [Vm.entry_setFrame_of_ne htn, Vm.entry_congr (congrFun hmem t)]
  · simp [Vm.entry]

theorem Payload.linkTable (hpay : Payload s pos phys flags base base')
    (h : Settled base s live pos) (hs : Slot pos t i d q) {s₁ : Vm}
    (ha : s.alloc = some (n, s₁)) (p : ℕ × ℕ) :
    Payload ((s₁.setFrame n fun _ => 0).setEntry t i (ofTable n)) (Function.update pos n (some p))
      phys flags base base' := by
  obtain ⟨hmem, -, hn, hz, ht, -⟩ := Vm.alloc_eq_some ha
  obtain ⟨hpos, hb⟩ := h.pos_none_of_free hn hz
  cases hpay with
  | fresh hb' hlt hsh hvac =>
    refine .fresh hb' (by simpa [ht] using hlt) hsh ?_
    intro u j d' q' hs' hpres
    have hun : u ≠ n := by
      rintro rfl
      have htu : t ≠ u := by rintro rfl; simpa [hpos] using hs.pos_eq
      rw [Vm.entry_setEntry_of_ne (Or.inl htu.symm)] at hpres
      simp [Vm.entry] at hpres
    by_cases hk : u = t ∧ j = i
    · obtain ⟨rfl, rfl⟩ := hk
      rw [Vm.entry_setEntry_self, ppn_ofTable, Nat.mod_eq_of_lt (lt_of_lt_of_le hn s.pageMap.fits)]
      rintro rfl
      simp at hb
    · have he : ((s₁.setFrame n fun _ => 0).setEntry t i (ofTable n)).entry u j = s.entry u j := by
        rw [Vm.entry_setEntry_of_ne (by tauto), Vm.entry_setFrame_of_ne hun,
          Vm.entry_congr (congrFun hmem u)]
      rw [he] at hpres ⊢
      exact hvac u j d' q' ((slot_update_of_ne hun).mp hs') hpres
  | device hsh hlt hb => exact .device hsh (by simpa [ht] using hlt) hb
  | foreign hge hlt => exact .foreign (by simpa [ht] using hge) hlt

/-- The chain keeps the shape. -/
theorem mapFrom_settled {level : ℕ} (hl : d + level = 3) (h : Settled base s live pos)
    (hpay : Payload s pos phys flags base base')
    (hs : Slot pos t (tableIndex level virt) d (prefixAt d virt))
    (hfree : present (s.entry t (tableIndex level virt)) = false)
    (hmap : mapFrom virt phys flags level t s = some s') :
    ∃ pos', Settled base' s' live pos' ∧ Extended s s' pos pos' phys flags := by
  have hg := mapFrom_grown (h.counter_ne_zero hs.pos_eq) hfree hmap
  induction level generalizing d t s pos with
  | zero =>
    obtain rfl : d = 3 := by omega
    simp only [mapFrom, hfree, Bool.false_eq_true, if_false, Option.some.injEq] at hmap
    subst hmap
    obtain ⟨pos', hset, hmono, hback⟩ := h.linkPage hpay hs hfree
    exact ⟨pos', hset, hmono, fun u _ d q hu hnone => by
      simp [hback u d q hu.pos_eq hu.depth] at hnone⟩
  | succ level ih =>
    simp only [mapFrom, hfree, Bool.false_eq_true, if_false, Option.bind_eq_bind,
      Option.bind_eq_some_iff, Prod.exists] at hmap
    obtain ⟨n, s₁, ha, hmap⟩ := hmap
    obtain ⟨-, -, hn, -, ht, hp⟩ := Vm.alloc_eq_some ha
    obtain ⟨hpos, h₂⟩ := h.linkTable hs hfree ha
    have hppn : ppn (ofTable n) = n := by
      rw [ppn_ofTable, Nat.mod_eq_of_lt (lt_of_lt_of_le hn s.pageMap.fits)]
    have htn : t ≠ n := by rintro rfl; simpa [hpos] using hs.pos_eq
    rw [Vm.entry_setEntry_self, hppn] at hmap
    have hs₂ : Slot (Function.update pos n
          (some (d + 1, 512 * prefixAt d virt + tableIndex (level + 1) virt)))
        n (tableIndex level virt) (d + 1) (prefixAt (d + 1) virt) := by
      refine ⟨?_, by omega, ?_⟩
      · rw [Function.update_self, prefixAt_succ (by omega), show 3 - d = level + 1 by omega]
      · rw [show 3 - (d + 1) = level by omega, entryCount, if_neg (by omega)]
        exact tableIndex_lt _ _
    have hempty : ∀ j, present (((s₁.setFrame n fun _ => 0).setEntry t
        (tableIndex (level + 1) virt) (ofTable n)).entry n j) = false := by
      intro j
      rw [Vm.entry_setEntry_of_ne (Or.inl htn.symm)]
      simp [Vm.entry]
    have hg₂ := mapFrom_grown (h₂.counter_ne_zero hs₂.pos_eq) (hempty _) hmap
    obtain ⟨pos', hset, hmono, hfresh⟩ :=
      ih (by omega) h₂ (hpay.linkTable h hs ha _) hs₂ (hempty _) hmap hg₂
    have ht₂ : ((s₁.setFrame n fun _ => 0).setEntry t (tableIndex (level + 1) virt)
        (ofTable n)).pageMap.totalPages = s.pageMap.totalPages := ht
    refine ⟨pos', hset, ?_, ?_⟩
    · intro f p hf
      refine hmono f p ?_
      have hne : f ≠ n := by rintro rfl; simp [hpos] at hf
      rwa [Function.update_of_ne hne]
    · intro u j d' q' hu hnone hpu
      rcases eq_or_ne u n with rfl | hun
      · rcases eq_or_ne j (tableIndex level virt) with rfl | hj
        · obtain ⟨es, hwalk, hes⟩ := hg₂.chain
          exact head_of_chain hwalk (ht₂ ▸ hes)
        · -- the new table is empty but for its entry on the chain
          rw [hg₂.other u j (h₂.counter_ne_zero hs₂.pos_eq) (Or.inr hj), hempty j] at hpu
          cases hpu
      · exact ht₂ ▸ hfresh u j d' q' hu (by rwa [Function.update_of_ne hun]) hpu

theorem Settled.map (h : Settled base s live pos)
    (hpay : Payload s pos phys flags base base') (hr : r ∈ live)
    (hv : virt < userPages) (hmap : map r virt phys flags s = some s') :
    ∃ pos' k u, Settled base' s' live pos' ∧ Extended s s' pos pos' phys flags ∧
      Grown s s' virt phys flags k u := by
  obtain ⟨k, u, -, hk, hu, hfree, hm⟩ := mapFrom_descend (d := 0) rfl rfl hmap
  have hs := h.frameAt_slot hr hv (by omega) hu
  obtain ⟨pos', hset, hext⟩ := mapFrom_settled (by omega) h hpay hs hfree hm
  exact ⟨pos', 3 - k, u, hset, hext, mapFrom_grown (h.counter_ne_zero hs.pos_eq) hfree hm⟩

end AddrSpace

end Koerix
