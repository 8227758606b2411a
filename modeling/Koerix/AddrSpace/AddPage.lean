import Koerix.AddrSpace.Shared
import Koerix.AddrSpace.Undo

/-! # The page that `map` adds

In the address space that `map` is called for, one page is new and shows the frame and the
flags that were given. The fresh tables lead nowhere else, so that every other page stays as
it was, mapped or not.
-/

namespace Koerix

open GenericPagingTable

namespace AddrSpace

variable {s s' : Vm} {live : List ℕ} {pos : Positions} {base : ℕ → ℕ}
  {f g t d n r v v' phys level : ℕ} {flags : MapFlags}

/-- The table that `map` adds below an absent entry, and the rest of its work. -/
theorem mapFrom_succ_of_absent (ht : s.pageMap.pagemap t ≠ 0)
    (hp : present (s.entry t (tableIndex (level + 1) v)) = false)
    (hm : mapFrom v phys flags (level + 1) t s = some s') :
    ∃ n s₁, s.alloc = some (n, s₁) ∧ n ≠ t ∧ ppn (ofTable n) = n ∧
      mapFrom v phys flags level n ((s₁.setFrame n fun _ => 0).setEntry t
        (tableIndex (level + 1) v) (ofTable n)) = some s' ∧
      ((s₁.setFrame n fun _ => 0).setEntry t
        (tableIndex (level + 1) v) (ofTable n)).pageMap.pagemap n ≠ 0 ∧
      ∀ i, present (((s₁.setFrame n fun _ => 0).setEntry t
        (tableIndex (level + 1) v) (ofTable n)).entry n i) = false := by
  simp only [mapFrom, hp, Bool.false_eq_true, if_false, Option.bind_eq_bind,
    Option.bind_eq_some_iff, Prod.exists] at hm
  obtain ⟨n, s₁, ha, hm⟩ := hm
  obtain ⟨-, -, hn, hz, -, hpm⟩ := Vm.alloc_eq_some ha
  have hppn : ppn (ofTable n) = n := by
    rw [ppn_ofTable, Nat.mod_eq_of_lt (lt_of_lt_of_le hn s.pageMap.fits)]
  have hnt : n ≠ t := fun he => ht (he ▸ hz)
  rw [Vm.entry_setEntry_self, hppn] at hm
  refine ⟨n, s₁, ha, hnt, hppn, hm, by simp [hpm], fun i => ?_⟩
  rw [Vm.entry_setEntry_of_ne (Or.inl hnt)]
  simp [Vm.entry]

/-- `map` writes to the table of the absent entry and to free frames. -/
theorem mem_mapFrom_of_ne (ht : s.pageMap.pagemap t ≠ 0)
    (hp : present (s.entry t (tableIndex level v)) = false)
    (hm : mapFrom v phys flags level t s = some s') (hne : f ≠ t)
    (hf : f < s.pageMap.totalPages → s.pageMap.pagemap f ≠ 0) : s'.mem f = s.mem f := by
  induction level generalizing t s with
  | zero =>
    simp only [mapFrom, hp, Bool.false_eq_true, if_false, Option.some.injEq] at hm
    subst hm
    exact Vm.mem_setEntry_of_ne hne
  | succ level ih =>
    obtain ⟨n, s₁, ha, -, -, hm, hn, hempty⟩ := mapFrom_succ_of_absent ht hp hm
    obtain ⟨hmem, -, hlt, hz, htot, hpm⟩ := Vm.alloc_eq_some ha
    have hfn : f ≠ n := by
      rintro rfl
      exact hf hlt hz
    have hf' : f < s₁.pageMap.totalPages → s₁.pageMap.pagemap f ≠ 0 := by
      rw [htot, hpm, Function.update_of_ne hfn]
      exact hf
    rw [ih hn (hempty _) hm hfn hf', Vm.mem_setEntry_of_ne hne, Vm.mem_setFrame_of_ne hfn, hmem]

theorem walkFrom_of_absent (h : present (s.entry t (tableIndex level v)) = false) :
    walkFrom s v level t = none := by
  cases level <;> simp [walkFrom, h]

theorem walkFrom_mapFrom_of_ne (ht : s.pageMap.pagemap t ≠ 0)
    (hp : present (s.entry t (tableIndex level v)) = false)
    (hm : mapFrom v phys flags level t s = some s')
    (hi : tableIndex level v' = tableIndex level v)
    (hne : ∃ k ≤ level, tableIndex k v' ≠ tableIndex k v) : walkFrom s' v' level t = none := by
  induction level generalizing t s with
  | zero =>
    obtain ⟨k, hk, hne⟩ := hne
    obtain rfl : k = 0 := by omega
    exact absurd hi hne
  | succ level ih =>
    obtain ⟨n, s₁, ha, hnt, hppn, hm, hn, hempty⟩ := mapFrom_succ_of_absent ht hp hm
    have hg := mapFrom_grown hn (hempty _) hm
    obtain ⟨-, -, -, -, -, hpm⟩ := Vm.alloc_eq_some ha
    have ht' : s₁.pageMap.pagemap t ≠ 0 := by rwa [hpm, Function.update_of_ne hnt.symm]
    have hentry : s'.entry t (tableIndex (level + 1) v') = ofTable n := by
      rw [hi, hg.other t _ ht' (Or.inl hnt.symm), Vm.entry_setEntry_self]
    obtain ⟨k, hk, hne⟩ := hne
    have hkl : k ≤ level := by
      have hk' : k ≠ level + 1 := by
        rintro rfl
        exact hne hi
      omega
    suffices hsub : walkFrom s' v' level n = none by
      rw [walkFrom, hentry, present_ofTable, if_pos rfl, hppn, hsub]
      rfl
    by_cases hil : tableIndex level v' = tableIndex level v
    · exact ih hn (hempty _) hm hil ⟨k, hkl, hne⟩
    · have habsent : present (s'.entry n (tableIndex level v')) = false := by
        rw [hg.other n _ hn (Or.inr hil)]
        exact hempty _
      exact walkFrom_of_absent habsent

/-- `map` takes one frame for each table that it adds. -/
theorem freeFrames_mapFrom (hm : mapFrom v phys flags level t s = some s') :
    s.pageMap.freeFrames ≤ s'.pageMap.freeFrames + level := by
  induction level generalizing t s with
  | zero =>
    rw [mapFrom] at hm
    split_ifs at hm
    obtain rfl := Option.some.inj hm
    exact le_rfl
  | succ level ih =>
    rw [mapFrom] at hm
    split_ifs at hm
    · exact (ih hm).trans (by omega)
    · simp only [Option.bind_eq_bind, Option.bind_eq_some_iff, Prod.exists] at hm
      obtain ⟨n, s₁, ha, hm⟩ := hm
      simp only [Vm.alloc, Option.map_eq_some_iff, Prod.exists, Prod.mk.injEq] at ha
      obtain ⟨f, m, hfm, rfl, rfl⟩ := ha
      have hcount := PageMap.freeFrames_alloc hfm
      have hle : m.freeFrames ≤ s'.pageMap.freeFrames + level := ih hm
      omega

theorem exists_tableIndex_ne (hk : d ≤ 4) (hq : prefixAt d v' = prefixAt d v) (hne : v' ≠ v) :
    ∃ k < 4 - d, tableIndex k v' ≠ tableIndex k v := by
  by_contra hall
  push Not at hall
  have hprefix : ∀ j, d ≤ j → j ≤ 4 → prefixAt j v' = prefixAt j v := by
    intro j hj
    induction j, hj using Nat.le_induction with
    | base => exact fun _ => hq
    | succ j hj ih =>
      intro hle
      rw [prefixAt_succ (by omega), prefixAt_succ (by omega), ih (by omega),
        hall (3 - j) (by omega)]
  apply hne
  simpa using hprefix 4 hk le_rfl

theorem walk_eq_none (hl : d + level = 3) (ht : frameAt s r v d = some t)
    (hw : walkFrom s v level t = none) : walk s r v = none := by
  by_contra hne
  obtain ⟨es, hes⟩ := Option.ne_none_iff_exists'.mp hne
  obtain ⟨e₀, e₁, e₂, e₃, h₀, h₁, h₂, h₃, -⟩ := walk_eq_some_iff.mp hes
  rw [walkFrom_eq_entryAt hl ht] at hw
  have hd : d ≤ 3 := by omega
  obtain rfl : level = 3 - d := by omega
  interval_cases d <;> simp [List.range'_succ, h₀, h₁, h₂, h₃] at hw

theorem Settled.frame_of_entryAt {e : GenericPagingTable} (h : Settled base s live pos)
    (hr : r ∈ live) (hv : v < userPages) (he : entryAt s r v 3 = some e) :
    (ppn e < s.pageMap.totalPages → s.pageMap.pagemap (ppn e) ≠ 0) ∧
      ∀ {d q}, pos (ppn e) = some (d, q) → d = 4 := by
  obtain ⟨t, ht, rfl, hp⟩ := entryAt_eq_some_iff.mp he
  have hok := h.entries (h.frameAt_slot hr hv (by decide) ht) hp
  rcases Nat.lt_or_ge (ppn (s.entry t (tableIndex (3 - 3) v))) s.pageMap.totalPages with hlt | hge
  · rcases hsh : shared (s.entry t (tableIndex (3 - 3) v)) with _ | _
    · have hpos := hok.child hsh hlt
      refine ⟨fun _ => h.counter_ne_zero hpos, fun {d q} hq => ?_⟩
      have heq := hpos.symm.trans hq
      simp only [Option.some.injEq, Prod.mk.injEq] at heq
      omega
    · obtain ⟨hnone, hpos⟩ := hok.device hsh hlt
      refine ⟨fun _ hz => ?_, fun hq => absurd (hnone.symm.trans hq) (by simp)⟩
      have hc := h.counter_eq hlt
      rw [hz, UInt8.toNat_zero] at hc
      omega
  · exact ⟨fun hlt => absurd hlt (by omega), fun hq => absurd (h.bounded hq).1 (by omega)⟩

/-- The page is missing from two address spaces at the same entry. -/
def SameHole (s : Vm) (r r' virt : ℕ) : Prop :=
  ∃ k ≤ 3, ∃ u, frameAt s r virt k = some u ∧ frameAt s r' virt k = some u ∧
    present (s.entry u (tableIndex (3 - k) virt)) = false

/-- The pages that `map` was not called for stay as they were, and so does the page itself
where it is not missing at the entry that `map` fills. -/
theorem Settled.view_map_eq (h : Settled base s live pos) (hr : r ∈ live)
    (hv : v < userPages) (hm : AddrSpace.map r v phys flags s = some s') {r' : ℕ} (hr' : r' ∈ live)
    (hv' : v' < userPages) (hne : v' = v → ¬ SameHole s r r' v) :
    view s' r' v' = view s r' v' := by
  obtain ⟨k, u, -, hk, hu, hfree, hmf⟩ := mapFrom_descend (d := 0) rfl rfl hm
  have hs := h.frameAt_slot hr hv (by omega) hu
  have hused := h.counter_ne_zero hs.pos_eq
  have hg := mapFrom_grown hused hfree hmf
  by_cases hq : frameAt s r' v' k = some u ∧ tableIndex (3 - k) v' = tableIndex (3 - k) v
  · -- the path of the other page leads through the entry that was absent
    obtain ⟨hu', hi⟩ := hq
    have hne' : v' ≠ v := by
      rintro rfl
      exact hne rfl ⟨k, hk, u, hu, hu', hfree⟩
    have hprefix : prefixAt (k + 1) v' = prefixAt (k + 1) v := by
      have heq := (h.frameAt_slot hr' hv' (by omega) hu').pos_eq.symm.trans hs.pos_eq
      simp only [Option.some.injEq, Prod.mk.injEq, true_and] at heq
      rw [prefixAt_succ (by omega), prefixAt_succ (by omega), heq, hi]
    have hu'' : frameAt s' r' v' k = some u := by
      rw [← hu']
      refine frameAt_congr fun j hj t ht => ?_
      have hst := h.frameAt_slot hr' hv' (by omega) ht
      rw [hg.other t _ (h.counter_ne_zero hst.pos_eq) (Or.inl (hs.ne_of_depth hst hj))]
      exact ⟨rfl, fun _ => rfl⟩
    obtain ⟨j, hj, hji⟩ := exists_tableIndex_ne (by omega) hprefix hne'
    have hwalk := walkFrom_mapFrom_of_ne hused hfree hmf hi ⟨j, by omega, hji⟩
    have hold : walkFrom s v' (3 - k) u = none := walkFrom_of_absent (by rw [hi, hfree])
    rw [view, view, walk_eq_none (by omega) hu'' hwalk, walk_eq_none (by omega) hu' hold]
    rfl
  · have hother : ∀ j < 4, ∀ t, frameAt s r' v' j = some t →
        s'.entry t (tableIndex (3 - j) v') = s.entry t (tableIndex (3 - j) v') := by
      intro j hj t ht
      have hst := h.frameAt_slot hr' hv' hj ht
      refine hg.other t _ (h.counter_ne_zero hst.pos_eq) ?_
      by_contra hc
      obtain ⟨rfl, hi⟩ : t = u ∧ tableIndex (3 - j) v' = tableIndex (3 - k) v := by tauto
      have heq := hst.pos_eq.symm.trans hs.pos_eq
      simp only [Option.some.injEq, Prod.mk.injEq] at heq
      obtain ⟨rfl, -⟩ := heq
      exact hq ⟨ht, hi⟩
    have hwalk : walk s' r' v' = walk s r' v' := walk_congr hother
    rw [view, view, hwalk]
    refine Option.map_congr fun es hes => ?_
    obtain ⟨e₀, e₁, e₂, e₃, -, -, -, he, rfl⟩ := walk_eq_some_iff.mp hes
    obtain ⟨hf, hd⟩ := h.frame_of_entryAt hr' hv' he
    have hfu : ppn e₃ ≠ u := fun heq => absurd (hd (heq ▸ hs.pos_eq)) (by omega)
    have hmem := mem_mapFrom_of_ne hused hfree hmf hfu hf
    simp [pageOf, hg.total, hmem]

theorem Settled.view_map_of_ne (h : Settled base s live pos) (hr : r ∈ live)
    (hv : v < userPages) (hm : AddrSpace.map r v phys flags s = some s') (hv' : v' < userPages)
    (hne : v' ≠ v) : view s' r v' = view s r v' :=
  h.view_map_eq hr hv hm hr hv' fun he => absurd he hne

theorem Settled.view_alloc_setFrame {s₁ : Vm} (h : Settled base s live pos) (hr : r ∈ live)
    (hv : v < userPages) (ha : s.alloc = some (phys, s₁)) (content : ℕ → BitVec 64) :
    view (s₁.setFrame phys content) r v = view s r v := by
  obtain ⟨hmem, -, hlt, hz, htot, -⟩ := Vm.alloc_eq_some ha
  have hnone := (h.pos_none_of_free hlt hz).1
  have hmem' : ∀ f, f ≠ phys → (s₁.setFrame phys content).mem f = s.mem f := by
    intro f hf
    rw [Vm.mem_setFrame_of_ne hf, hmem]
  have hwalk : walk (s₁.setFrame phys content) r v = walk s r v := by
    apply h.walk_eq hr hv
    intro t i d q hs
    apply Vm.entry_congr
    apply hmem'
    rintro rfl
    simpa [hnone] using hs.pos_eq
  rw [view, view, hwalk]
  refine Option.map_congr fun es hes => ?_
  obtain ⟨e₀, e₁, e₂, e₃, -, -, -, he, rfl⟩ := walk_eq_some_iff.mp hes
  have hf : ppn e₃ ≠ phys := by
    intro heq
    exact (h.frame_of_entryAt hr hv he).1 (heq ▸ hlt) (heq ▸ hz)
  simp [pageOf, hmem' _ hf, htot]

theorem Settled.view_of_entryAt {e : GenericPagingTable} (h : Settled base s live pos)
    (hr : r ∈ live) (hv : v < userPages) (he : entryAt s r v 3 = some e) :
    view s r v = some {
      writable := writable e
      user := user e
      noExec := noExec e
      cacheDisable := cacheDisable e
      shared := shared e
      foreign := decide (s.pageMap.totalPages ≤ ppn e)
      content := s.mem (ppn e) } := by
  have hupper : ∀ d < 3, ∀ e, entryAt s r v d = some e →
      writable e = true ∧ user e = true ∧ noExec e = false := by
    intro d hd e he
    obtain ⟨t, ht, rfl, hp⟩ := entryAt_eq_some_iff.mp he
    exact ((h.entries (h.frameAt_slot hr hv (by omega) ht) hp).upper hd).2.2
  obtain ⟨e₀, e₁, e₂, hw⟩ := exists_walk he
  obtain ⟨_, _, _, _, h₀, h₁, h₂, -, heq⟩ := walk_eq_some_iff.mp hw
  cases heq
  simp [view, hw, pageOf, hupper 0 (by decide) _ h₀, hupper 1 (by decide) _ h₁,
    hupper 2 (by decide) _ h₂]

theorem frameAt_four_of_view (h : view s r v = none) : frameAt s r v 4 = none := by
  rw [frameAt_succ, Option.map_eq_none_iff]
  by_contra hne
  obtain ⟨e, he⟩ := Option.ne_none_iff_exists'.mp hne
  obtain ⟨e₀, e₁, e₂, hw⟩ := exists_walk he
  simp [view, hw] at h

theorem Settled.mem_map (h : Settled base s live pos) (hr : r ∈ live) (hv : v < userPages)
    (hm : AddrSpace.map r v phys flags s = some s') (hf : pos f = none)
    (hused : f < s.pageMap.totalPages → s.pageMap.pagemap f ≠ 0) : s'.mem f = s.mem f := by
  obtain ⟨k, u, -, hk, hu, hfree, hmf⟩ := mapFrom_descend (d := 0) rfl rfl hm
  have hs := h.frameAt_slot hr hv (by omega) hu
  have hfu : f ≠ u := by
    rintro rfl
    simpa [hf] using hs.pos_eq
  exact mem_mapFrom_of_ne (h.counter_ne_zero hs.pos_eq) hfree hmf hfu hused

theorem Settled.allocFilled {s₁ : Vm} (h : Settled base s live pos)
    (ha : s.alloc = some (phys, s₁)) (content : ℕ → BitVec 64) :
    Settled (Function.update base phys 1) (s₁.setFrame phys content) live pos ∧
      Vacant (s₁.setFrame phys content) pos phys := by
  obtain ⟨hpos, -, hvac, h₁⟩ := h.alloc ha
  have hmem : ∀ u, pos u ≠ none → (s₁.setFrame phys content).mem u = s₁.mem u :=
    fun u hu => Vm.mem_setFrame_of_ne (by rintro rfl; exact hu hpos)
  exact ⟨h₁.setOutside rfl hmem, hvac.congr hmem⟩

theorem Settled.mem_allocFilled {s₁ : Vm} {k u : ℕ} (h : Settled base s live pos) (hr : r ∈ live)
    (hv : v < userPages) (ha : s.alloc = some (phys, s₁)) (content : ℕ → BitVec 64) (hk : k < 4)
    (hu : frameAt s r v k = some u) : (s₁.setFrame phys content).mem u = s.mem u := by
  obtain ⟨hpos, -⟩ := h.alloc ha
  obtain ⟨hmem, -⟩ := Vm.alloc_eq_some ha
  have hne : u ≠ phys := by
    rintro rfl
    simpa [hpos] using (h.frameAt_slot hr hv hk hu).pos_eq
  rw [Vm.mem_setFrame_of_ne hne, hmem]

theorem Settled.frameAt_allocFilled {s₁ : Vm} {k : ℕ} (h : Settled base s live pos) (hr : r ∈ live)
    (hv : v < userPages) (ha : s.alloc = some (phys, s₁)) (content : ℕ → BitVec 64) (hk : k ≤ 4) :
    frameAt (s₁.setFrame phys content) r v k = frameAt s r v k := by
  refine frameAt_congr fun j hj t ht => ?_
  rw [Vm.entry_congr (h.mem_allocFilled hr hv ha content (by omega) ht)]
  exact ⟨rfl, fun _ => rfl⟩

theorem Settled.addedPage {s₁ : Vm} (h : Settled base s live pos) (hr : r ∈ live)
    (hv : v < userPages) (hsh : flags.shared = false) {content : ℕ → BitVec 64}
    (ha : s.alloc = some (phys, s₁))
    (hm : AddrSpace.map r v phys flags (s₁.setFrame phys content) = some s') :
    (∃ pos', Settled base s' live pos') ∧
      view s' r v = some ⟨flags.write, flags.user, flags.noexec, flags.nocache, false, false,
        content⟩ ∧
      ∀ v' < userPages, v' ≠ v → view s' r v' = view s r v' := by
  obtain ⟨hpos, hb, -, -⟩ := h.alloc ha
  obtain ⟨-, -, hlt, -, htot, hpm⟩ := Vm.alloc_eq_some ha
  obtain ⟨h₂, hvac⟩ := h.allocFilled ha content
  obtain ⟨pos', k, u, h', -, hg⟩ := h₂.map (.fresh hb (by simpa [htot] using hlt) hsh hvac) hr hv hm
  refine ⟨⟨pos', h'⟩, ?_, fun v' hv' hne => ?_⟩
  · have hppn : ppn (ofPage phys flags) = phys := by
      rw [ppn_ofPage, Nat.mod_eq_of_lt (lt_of_lt_of_le hlt s.pageMap.fits)]
    have hcontent : s'.mem phys = content := by
      rw [h₂.mem_map hr hv hm hpos fun _ => by simp [hpm], Vm.mem_setFrame_self]
    rw [h'.view_of_entryAt hr hv (h₂.entryAt_map hr hv hm), hppn, hcontent, hg.total]
    simp [writable, hsh, htot, hlt]
  · rw [h₂.view_map_of_ne hr hv hm hv' hne, h.view_alloc_setFrame hr hv' ha content]

/-- A fresh frame mapped at a page that was not mapped: one page is added, and four frames are
enough for it. -/
theorem Settled.addPage (h : Settled base s live pos) (hr : r ∈ live) (hv : v < userPages)
    (hun : view s r v = none) (hfree : 4 ≤ s.pageMap.freeFrames) (hsh : flags.shared = false)
    (content : ℕ → BitVec 64) :
    ∃ phys s₁ s', s.alloc = some (phys, s₁) ∧
      AddrSpace.map r v phys flags (s₁.setFrame phys content) = some s' ∧
      s.pageMap.freeFrames ≤ s'.pageMap.freeFrames + 4 ∧ (∃ pos', Settled base s' live pos') ∧
      view s' r v = some ⟨flags.write, flags.user, flags.noexec, flags.nocache, false, false,
        content⟩ ∧
      ∀ v' < userPages, v' ≠ v → view s' r v' = view s r v' := by
  obtain ⟨phys, m, hm⟩ := PageMap.exists_alloc (show 0 < s.pageMap.freeFrames by omega)
  have ha : s.alloc = some (phys, { s with pageMap := m }) := by rw [Vm.alloc, hm]; rfl
  have hcount := PageMap.freeFrames_alloc hm
  obtain ⟨h₂, -⟩ := h.allocFilled ha content
  have hun' : frameAt (Vm.setFrame { s with pageMap := m } phys content) r v 4 = none :=
    frameAt_four_of_view ((h.view_alloc_setFrame hr hv ha content).trans hun)
  obtain ⟨s', hmap⟩ : ∃ s', AddrSpace.map r v phys flags
      (Vm.setFrame { s with pageMap := m } phys content) = some s' := by
    apply exists_mapFrom (d := 0) rfl rfl hun'
    · intro k hk u hu
      exact h₂.counter_ne_zero (h₂.frameAt_slot hr hv (by omega) hu).pos_eq
    · change 3 ≤ m.freeFrames
      omega
  have hle : m.freeFrames ≤ s'.pageMap.freeFrames + 3 := freeFrames_mapFrom hmap
  obtain ⟨hset, hview, hother⟩ := h.addedPage hr hv hsh ha hmap
  exact ⟨phys, _, s', ha, hmap, by omega, hset, hview, hother⟩

end AddrSpace

end Koerix
