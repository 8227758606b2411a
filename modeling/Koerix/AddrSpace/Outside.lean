import Koerix.AddrSpace.Beside
import Koerix.AddrSpace.Destroy
import Koerix.AddrSpace.Shared

/-! # Frames outside the user tables

Part of the physical memory belongs to the rest of the kernel: the tables and
the pages of the kernel heap, and what was reserved at boot. Operations on user
address spaces leave this memory alone, and operations on kernel memory leave
the user tables alone. A frame that the kernel holds may be given back unless a
shared page of some process lies in it.
-/

namespace Koerix

open GenericPagingTable InDegree

namespace AddrSpace

/-- Some live address space has a shared page in the frame `g`. -/
def MapsShared (s : Vm) (live : List ℕ) (g : ℕ) : Prop :=
  ∃ r ∈ live, ∃ virt < userPages, ∃ e, entryAt s r virt 3 = some e ∧ shared e = true ∧ ppn e = g

/-- What an operation on user address spaces leaves alone: the kernel still holds what it held,
with the same contents, and no such frame has become a shared page. -/
structure Contained (base base' : ℕ → ℕ) (s s' : Vm) (live live' : List ℕ) : Prop where
  total : s'.pageMap.totalPages = s.pageMap.totalPages
  held : ∀ g, base g ≠ 0 → base' g ≠ 0
  mem : ∀ g < s.pageMap.totalPages, base g ≠ 0 → s'.mem g = s.mem g
  names : ∀ g, base g ≠ 0 → MapsShared s' live' g → MapsShared s live g

variable {s s' s'' : Vm} {live live' : List ℕ} {pos pos' : Positions} {base base' base'' : ℕ → ℕ}
  {f g t i d q n c k r v virt level phys : ℕ} {flags : MapFlags} {e : GenericPagingTable}

theorem Contained.refl (base : ℕ → ℕ) (s : Vm) (live : List ℕ) :
    Contained base base s s live live :=
  ⟨rfl, fun _ => id, fun _ _ _ => rfl, fun _ _ => id⟩

theorem Contained.trans {live'' : List ℕ} (h : Contained base base' s s' live live')
    (h' : Contained base' base'' s' s'' live' live'') :
    Contained base base'' s s'' live live'' where
  total := h'.total.trans h.total
  held g hg := h'.held g (h.held g hg)
  mem g hlt hg := (h'.mem g (h.total ▸ hlt) (h.held g hg)).trans (h.mem g hlt hg)
  names g hg hn := h.names g hg (h'.names g (h.held g hg) hn)

namespace Settled

theorem mapsShared_iff (h : Settled base s live pos) : MapsShared s live g ↔
    ∃ t i q, Slot pos t i 3 q ∧ present (s.entry t i) = true ∧ shared (s.entry t i) = true ∧
      ppn (s.entry t i) = g := by
  constructor
  · rintro ⟨r, hr, v, hv, e, he, hsh, hppn⟩
    obtain ⟨t, ht, rfl, hp⟩ := entryAt_eq_some_iff.mp he
    exact ⟨t, _, _, h.frameAt_slot hr hv (by decide) ht, hp, hsh, hppn⟩
  · rintro ⟨t, i, q, hs, hp, hsh, hppn⟩
    obtain ⟨r, hr, hf⟩ := h.exists_root hs.pos_eq
    have hi : i < 512 := hs.index
    have hq : prefixAt 3 (512 * q + i) = q := by unfold prefixAt; omega
    have hidx : tableIndex 0 (512 * q + i) = i := by rw [tableIndex_eq]; omega
    refine ⟨r, hr, 512 * q + i, h.lt_userPages hs.pos_eq hq, s.entry t i, ?_, hsh, hppn⟩
    exact entryAt_eq_some_iff.mpr ⟨t, hf _ hq, by rw [Nat.sub_self, hidx], hp⟩

theorem counter_ne_zero_of_held (h : Settled base s live pos) (hf : f < s.pageMap.totalPages)
    (hb : base f ≠ 0) : s.pageMap.pagemap f ≠ 0 := by
  intro hz
  exact hb (h.pos_none_of_free hf hz).2

theorem create_contained (h : Settled base s live pos)
    (hc : AddrSpace.create s = some (n, s')) : Contained base base s s' live (live ++ [n]) := by
  obtain ⟨hmem, -, htotal, -⟩ := h.create_frame hc
  obtain ⟨hpos, hb, -⟩ := h.createHeld hc
  refine ⟨htotal, fun _ => id, fun g _ hg => hmem g (by rintro rfl; exact hg hb), ?_⟩
  rintro g - ⟨r, hr, v, hv, e, he, hsh, hppn⟩
  rcases List.mem_append.mp hr with hr | hr
  · refine ⟨r, hr, v, hv, e, ?_, hsh, hppn⟩
    rw [← he]
    refine (entryAt_congr fun k hk t ht => ?_).symm
    have hs := h.frameAt_slot hr hv (by omega) ht
    exact Vm.entry_congr (hmem t (by rintro rfl; simpa [hpos] using hs.pos_eq))
  · obtain rfl := List.mem_singleton.mp hr
    obtain ⟨e₀, e₁, e₂, hw⟩ := exists_walk he
    have hview := (h.create_reshaped hc).2 v hv
    simp [view, hw] at hview

theorem clone_contained (h : Settled base s live pos) (hr : r ∈ live)
    (hfew : live.length + 1 < 256) (hc : AddrSpace.clone r s = some (n, s')) :
    Contained base base s s' live (live ++ [n]) := by
  obtain ⟨-, -, hresh, hview⟩ := h.clone hr hfew hc
  obtain ⟨hall, hnew, -⟩ := h.clone_keeps hr hc
  obtain ⟨s₁, hcr, rfl⟩ := clone_eq_some hc
  obtain ⟨-, hcopy⟩ := h.clone_copied hr hcr
  have hroot : ∀ {r}, r ∈ live → pos r = some (0, 0) := fun hr => h.root.mpr ⟨hr, rfl⟩
  refine ⟨hresh.total, fun _ => id, fun g _ hg => ?_, ?_⟩
  · obtain ⟨hmem, -, -, -⟩ := h.create_frame hcr
    obtain ⟨-, hb, -⟩ := h.createHeld hcr
    have hgn : g ≠ n := by rintro rfl; exact hg hb
    have hgr : g ≠ r := by rintro rfl; exact hg (h.base_pos (hroot hr))
    rw [hcopy.other g hgr hgn, hmem g hgn]
  · rintro g - ⟨r', hr', v, hv, e, he, hsh, hppn⟩
    rcases List.mem_append.mp hr' with hr' | hr'
    · exact ⟨r', hr', v, hv, e, (hall r' 0 0 (hroot hr') (by decide)).entryAt_of_view
        (hresh.view_eq h.toShape hr' hv) hv he hsh, hsh, hppn⟩
    · obtain rfl := List.mem_singleton.mp hr'
      exact ⟨r, hr, v, hv, e, hnew.entryAt_of_view (hview v hv) hv he hsh, hsh, hppn⟩

theorem claimEntry_mem (h : Settled base s live pos) (hs : Slot pos t i d q)
    (hp : present (s.entry t i) = true) (hc : AddrSpace.claimEntry (3 - d) t i s = some s')
    (hg : base g ≠ 0) : s'.mem g = s.mem g := by
  have hpos := h.pos_none_of_base hg
  have hgt : g ≠ t := by rintro rfl; simp [hs.pos_eq] at hpos
  unfold AddrSpace.claimEntry at hc
  dsimp only at hc
  split_ifs at hc
  · obtain ⟨n, hn, hz, hu⟩ := h.unshared hs hp hc
    refine hu.mem g hpos ?_
    rintro rfl
    exact hg (h.pos_none_of_free hn hz).2
  · cases hc
    exact Vm.mem_setEntry_of_ne hgt
  · cases hc
    rfl

theorem claimEntry_leaf (h : Settled base s live pos) (hs : Slot pos t i 3 q)
    (hp : present (s.entry t i) = true) (hc : AddrSpace.claimEntry (3 - 3) t i s = some s')
    (hg : base (ppn (s'.entry t i)) ≠ 0) :
    shared (s'.entry t i) = shared (s.entry t i) ∧ ppn (s'.entry t i) = ppn (s.entry t i) := by
  unfold AddrSpace.claimEntry at hc
  dsimp only at hc
  split_ifs at hc
  · obtain ⟨n, hn, hz, hu⟩ := h.unshared hs hp hc
    rw [hu.entry, ppn_relink, Nat.mod_eq_of_lt (lt_of_lt_of_le hn s.pageMap.fits)] at hg
    exact absurd (h.pos_none_of_free hn hz).2 hg
  · cases hc
    simp
  · cases hc
    exact ⟨rfl, rfl⟩

theorem claimStep_contained (hr : r ∈ live) (hv : virt < userPages)
    (hcl : ClaimStep live r virt d t s s' base base' pos pos') :
    Contained base base' s s' live live := by
  have h := hcl.settled
  have hs := h.frameAt_slot hr hv hcl.depth hcl.frame
  have hp := hcl.present_eq
  refine ⟨hcl.claimed.total, hcl.held, fun g _ hg => h.claimEntry_mem hs hp hcl.claim hg, ?_⟩
  rintro g hg ⟨r', hr', v', hv', e, he, hsh, hppn⟩
  rcases Nat.lt_or_ge d 3 with h3 | h3
  · -- a table has been claimed, which keeps all shared entries
    have hnot : ¬ IsShared (s.entry t (tableIndex (3 - d) virt)) := by
      simp [IsShared, ((h.entries hs hp).upper h3).2.1]
    have hkeeps := (h.claimEntry_keeps hs hp (fun _ => id) (fun _ => hnot) (fun _ => hnot)
      hcl.claim).1
    exact ⟨r', hr', v', hv', e, (hkeeps r' 0 0 (h.root.mpr ⟨hr', rfl⟩) (by decide)).entryAt_of_view
      (hcl.claimed.toReshaped.view_eq h.toShape hr' hv') hv' he hsh, hsh, hppn⟩
  · -- the leaf has been claimed, and the paths down to the page tables are as before
    obtain rfl : d = 3 := by have := hcl.depth; omega
    obtain ⟨t', ht', rfl, hp'⟩ := entryAt_eq_some_iff.mp he
    have hpath : frameAt s r' v' 3 = some t' := by
      rw [← ht']
      refine (frameAt_congr fun k hk u hu => ?_).symm
      have hsu := h.frameAt_slot hr' hv' (by omega) hu
      rw [hcl.claimed.above u _ k _ hsu hk.le (Or.inl (hs.ne_of_depth hsu hk))]
      exact ⟨rfl, fun _ => rfl⟩
    have hs' := h.frameAt_slot hr' hv' (by decide) hpath
    refine h.mapsShared_iff.mpr ⟨t', _, _, hs', ?_⟩
    by_cases hsame : t' = t ∧ tableIndex (3 - 3) v' = tableIndex (3 - 3) virt
    · obtain ⟨rfl, hi⟩ := hsame
      rw [hi] at hsh hppn ⊢
      obtain ⟨hsh', hppn'⟩ := h.claimEntry_leaf hs hp hcl.claim (hppn ▸ hg)
      exact ⟨hp, hsh' ▸ hsh, hppn' ▸ hppn⟩
    · rw [← hcl.claimed.above t' _ 3 _ hs' le_rfl (by tauto)]
      exact ⟨hp', hsh, hppn⟩

theorem triggerCow_contained {b : Bool} (h : Settled base s live pos) (hr : r ∈ live)
    (hv : virt < userPages) (hc : AddrSpace.triggerCow r virt s = some (b, s')) :
    ∃ base' pos', Settled base' s' live pos' ∧ Contained base base' s s' live live := by
  obtain ⟨k, base', pos', hset, hcon, -⟩ := h.triggerCowFrom_induct (d := 0)
    (P := fun _ u base' _ => Contained base base' s u live live)
    (fun hcl hcon => hcon.trans (claimStep_contained hr hv hcl)) rfl hr hv rfl
    (Contained.refl base s live) hc
  exact ⟨base', pos', hset, hcon⟩

theorem map_mem (h : Settled base s live pos) (hr : r ∈ live) (hv : virt < userPages)
    (hm : AddrSpace.map r virt phys flags s = some s') (hg : g < s.pageMap.totalPages)
    (hb : base g ≠ 0) : s'.mem g = s.mem g := by
  obtain ⟨k, u, -, hk, hu, hfree, hmap⟩ := mapFrom_descend (d := 0) rfl rfl hm
  have hs := h.frameAt_slot hr hv (by omega) hu
  have hgrown := mapFrom_grown (h.counter_ne_zero hs.pos_eq) hfree hmap
  have hgu : g ≠ u := by
    rintro rfl
    exact hb (h.base_pos hs.pos_eq)
  funext j
  exact hgrown.other g j (h.counter_ne_zero_of_held hg hb) (Or.inl hgu)

/-- Mapping a page adds at most its own frame to the shared pages. -/
theorem map_mapsShared (h : Settled base s live pos) (hpay : Payload s pos phys flags base base')
    (hr : r ∈ live) (hv : virt < userPages) (hm : AddrSpace.map r virt phys flags s = some s')
    (hn : MapsShared s' live g) :
    MapsShared s live g ∨ flags.shared = true ∧ g = phys % 2 ^ 28 := by
  obtain ⟨pos', k, u, h', hext, hg⟩ := h.map hpay hr hv hm
  have hwritten : ∀ e, Written s.pageMap.totalPages phys flags e → shared e = true → ppn e = g →
      flags.shared = true ∧ g = phys % 2 ^ 28 := by
    rintro e (rfl | ⟨n, -, rfl⟩) hsh hppn
    · rw [shared_ofPage] at hsh
      rw [ppn_ofPage] at hppn
      exact ⟨hsh, hppn.symm⟩
    · simp at hsh
  obtain ⟨t, i, q, hs', hp, hsh, hppn⟩ := h'.mapsShared_iff.mp hn
  rcases hpos : pos t with _ | ⟨d, q'⟩
  · exact Or.inr (hwritten _ (hext.fresh t i 3 q hs' hpos hp) hsh hppn)
  · have hs : Slot pos t i 3 q := by
      refine ⟨?_, hs'.depth, hs'.index⟩
      rw [hpos, ← hext.mono t _ hpos, hs'.pos_eq]
    by_cases hk : t = u ∧ i = tableIndex k virt
    · obtain ⟨rfl, rfl⟩ := hk
      obtain ⟨es, hchain, hes⟩ := hg.chain
      exact Or.inr (hwritten _ (head_of_chain hchain hes) hsh hppn)
    · have hother := hg.other t i (h.counter_ne_zero hpos) (by tauto)
      rw [hother] at hp hsh hppn
      exact Or.inl (h.mapsShared_iff.mpr ⟨t, i, q, hs, hp, hsh, hppn⟩)

theorem mapFresh_contained {s₁ : Vm} {content : ℕ → BitVec 64} (h : Settled base s live pos)
    (hr : r ∈ live) (hv : virt < userPages) (hsh : flags.shared = false)
    (ha : s.alloc = some (phys, s₁))
    (hm : AddrSpace.map r virt phys flags (s₁.setFrame phys content) = some s') :
    ∃ pos', Settled base s' live pos' ∧ Contained base base s s' live live := by
  obtain ⟨hpos, hb, hvac, h₁⟩ := h.alloc ha
  obtain ⟨hmem, -, hlt, -, ht, -⟩ := Vm.alloc_eq_some ha
  have hmem' : ∀ u, pos u ≠ none → (s₁.setFrame phys content).mem u = s₁.mem u :=
    fun u hu => Vm.mem_setFrame_of_ne (by rintro rfl; exact hu hpos)
  have h₂ : Settled (Function.update base phys 1) (s₁.setFrame phys content) live pos :=
    h₁.setOutside rfl hmem'
  have hpay : Payload (s₁.setFrame phys content) pos phys flags
    (Function.update base phys 1) base :=
    .fresh hb (by simpa [ht] using hlt) hsh (hvac.congr hmem')
  obtain ⟨pos', k, u, h', -, hg⟩ := h₂.map hpay hr hv hm
  refine ⟨pos', h', hg.total.trans ht, fun _ => id, fun g hlt' hbg => ?_, fun g _ hn => ?_⟩
  · have hne : g ≠ phys := by rintro rfl; exact hbg hb
    rw [h₂.map_mem hr hv hm (ht ▸ hlt') (by rwa [Function.update_of_ne hne]),
      Vm.mem_setFrame_of_ne hne, hmem]
  · rcases h₂.map_mapsShared hpay hr hv hm hn with hold | ⟨hf, -⟩
    · obtain ⟨r', hr', v', hv', e, he, hsh', hppn⟩ := hold
      refine ⟨r', hr', v', hv', e, ?_, hsh', hppn⟩
      rw [← he]
      refine (entryAt_congr fun k hk t ht => ?_).symm
      have hs := h.frameAt_slot hr' hv' (by omega) ht
      rw [Vm.entry_congr (hmem' t (by simp [hs.pos_eq])), Vm.entry_congr (congrFun hmem t)]
    · simp [hsh] at hf

theorem destroy_contained (h : Settled base s live pos) (hr : r ∈ live) (hsev : Severable s 3 r)
    (hd : AddrSpace.destroy r s = some s') :
    ∃ pos', Settled base s' (live.erase r) pos' ∧ Contained base base s s' live (live.erase r) := by
  obtain ⟨s₁, pos', hd', ht, hset⟩ := h.destroy hr hsev
  rw [hd] at hd'
  cases hd'
  have hmem : s'.mem = s.mem := by
    simp only [AddrSpace.destroy, Option.bind_eq_bind, Option.bind_eq_some_iff, Option.pure_def,
      Option.some.injEq] at hd
    obtain ⟨m, -, m', -, rfl⟩ := hd
    rfl
  refine ⟨pos', hset, ht, fun _ => id, fun g _ _ => congrFun hmem g, ?_⟩
  rintro g - ⟨r', hr', v', hv', e, he, hsh, hppn⟩
  refine ⟨r', List.mem_of_mem_erase hr', v', hv', e, ?_, hsh, hppn⟩
  rw [← he]
  exact (entryAt_congr fun k hk t _ => Vm.entry_congr (congrFun hmem t)).symm

end Settled

section Kernel

/-- What an operation on kernel memory leaves alone: the user tables. -/
structure Aside (base' : ℕ → ℕ) (s s' : Vm) (live : List ℕ) (pos : Positions) : Prop where
  settled : Settled base' s' live pos
  total : s'.pageMap.totalPages = s.pageMap.totalPages
  mem : ∀ u, pos u ≠ none → s'.mem u = s.mem u

theorem Aside.trans (h : Aside base' s s' live pos) (h' : Aside base'' s' s'' live pos) :
    Aside base'' s s'' live pos :=
  ⟨h'.settled, h'.total.trans h.total, fun u hu => (h'.mem u hu).trans (h.mem u hu)⟩

theorem Aside.mapsShared_iff (h : Settled base s live pos) (ha : Aside base' s s' live pos) :
    MapsShared s' live g ↔ MapsShared s live g := by
  rw [ha.settled.mapsShared_iff, h.mapsShared_iff]
  refine exists_congr fun t => exists_congr fun i => exists_congr fun q =>
    and_congr_right fun hs => ?_
  rw [Vm.entry_congr (ha.mem t (by simp [hs.pos_eq]))]

variable {R : Set ℕ} {pml4 j v' : ℕ} {tables : ℕ → ℕ}

namespace Settled

theorem setEntry_aside (h : Settled base s live pos) (hb : base t ≠ 0) :
    Aside base s (s.setEntry t i e) live pos := by
  have hmem : ∀ u, pos u ≠ none → (s.setEntry t i e).mem u = s.mem u :=
    fun u hu => Vm.mem_setEntry_of_ne (by rintro rfl; exact hu (h.pos_none_of_base hb))
  exact ⟨h.setOutside rfl hmem, rfl, hmem⟩

/-- The kernel gives a frame back in which no shared page lies. -/
theorem free_aside (h : Settled base s live pos) (hf : f < s.pageMap.totalPages)
    (hb : base f ≠ 0) (hnot : ¬ MapsShared s live f) (hfree : s.free f = some s') :
    Aside (Function.update base f (base f - 1)) s s' live pos := by
  obtain ⟨hmem, -, hne, ht, hp⟩ := Vm.free_eq_some hfree hf
  have hpos := h.pos_none_of_base hb
  have htgt : target s' = target s := funext fun _ =>
    target_congr (Vm.entry_congr (congrFun hmem _))
  have hent : ∀ t i, s'.entry t i = s.entry t i := fun t _ => Vm.entry_congr (congrFun hmem t)
  have hcount : ∀ g, g ≠ f → count s' pos (restHeld (Function.update base f (base f - 1)) live) g =
      count s pos (restHeld base live) g := by
    intro g hg
    simp [count, restHeld, htgt, ht, hg]
  have hvac : Vacant s pos f := by
    rintro t i d q hs hpres rfl
    have hok := h.entries hs hpres
    rcases hsh : shared (s.entry t i) with _ | _
    · simpa [hpos] using hok.child hsh hf
    · have hd : d = 3 := by
        have := hs.depth
        by_contra h3
        have hup := (hok.upper (by omega)).2.1
        simp [hsh] at hup
      subst hd
      exact hnot (h.mapsShared_iff.mpr ⟨t, i, q, hs, hpres, hsh, rfl⟩)
  refine ⟨{
    bounded := ht ▸ h.bounded
    root := h.root
    entries := ?_
    refs := ?_
    used := ?_
    nodup := h.nodup
    few := h.few
    base_lt := ?_
    base_pos := ?_ }, ht, fun u _ => congrFun hmem u⟩
  · intro t i d q hs hpres
    rw [hent] at hpres ⊢
    rw [ht]
    have hnf := hvac t i d q hs hpres
    exact (h.entries hs hpres).mono (fun _ => rfl) (fun _ h0 => by rwa [hcount _ hnf])
      fun _ _ h1 => (hcount _ hnf).trans h1
  · intro g hg
    rw [ht] at hg
    rw [hp]
    rcases eq_or_ne g f with rfl | hgf
    · have hc := h.refs hg
      have hone : count s pos (restHeld base live) g = base g := h.count_of_pos_none hg hpos
      have hone' : count s' pos (restHeld (Function.update base g (base g - 1)) live) g =
          base g - 1 := by
        rw [count, htgt, ht, h.deg_eq_zero hg hpos]
        simp [restHeld, h.notMem_live_of_pos_none hpos]
      rw [Function.update_self, hc, hone, hone']
      apply UInt8.toNat_inj.mp
      have hlt := h.base_lt g
      rw [UInt8.toNat_sub_of_le]
      · simp only [UInt8.toNat_ofNat', UInt8.toNat_one]
        omega
      · rw [UInt8.le_iff_toNat_le, UInt8.toNat_ofNat', UInt8.toNat_one]
        omega
    · rw [Function.update_of_ne hgf, hcount g hgf]
      exact h.refs hg
  · intro g p hg
    have hgf : g ≠ f := by rintro rfl; simp [hpos] at hg
    rw [hcount g hgf]
    exact h.used hg
  · intro g
    rcases eq_or_ne g f with rfl | hgf
    · rw [Function.update_self]
      exact lt_of_le_of_lt (Nat.sub_le _ _) (h.base_lt g)
    · rw [Function.update_of_ne hgf]
      exact h.base_lt g
  · intro g p hg
    have hgf : g ≠ f := by rintro rfl; simp [hpos] at hg
    rw [Function.update_of_ne hgf]
    exact h.base_pos hg

end Settled

/-- The kernel holds the tables on the path of `v` from the given table down. -/
def PathHeld (base : ℕ → ℕ) (s : Vm) (v : ℕ) : ℕ → ℕ → Prop
  | 0, t => base t ≠ 0
  | level + 1, t => base t ≠ 0 ∧ (present (s.entry t (tableIndex (level + 1) v)) = true →
      PathHeld base s v level (ppn (s.entry t (tableIndex (level + 1) v))))

theorem pathHeld_of_frameAt (hl : d + level = 3) (ht : frameAt s pml4 v d = some t)
    (hheld : ∀ j ≤ 3, ∀ f, frameAt s pml4 v j = some f → base f ≠ 0) :
    PathHeld base s v level t := by
  induction level generalizing d t with
  | zero => exact hheld d (by omega) t ht
  | succ level ih =>
    refine ⟨hheld d (by omega) t ht, fun hp =>
      ih (by omega) (frameAt_succ_eq_some_iff.mpr ⟨t, ht, ?_⟩)⟩
    rw [show 3 - d = level + 1 by omega]
    exact ⟨hp, rfl⟩

/-- Mapping a page of the kernel. -/
theorem Settled.mapFrom_aside (h : Settled base s live pos) (hpath : PathHeld base s v level t)
    (hm : mapFrom v phys flags level t s = some s') :
    ∃ base', Aside base' s s' live pos ∧ ∀ f, base f ≠ 0 → base' f ≠ 0 := by
  induction level generalizing t s base with
  | zero =>
    rw [mapFrom] at hm
    split_ifs at hm
    cases hm
    exact ⟨base, h.setEntry_aside hpath, fun _ => id⟩
  | succ level ih =>
    obtain ⟨hb, hnext⟩ := hpath
    rcases hp : present (s.entry t (tableIndex (level + 1) v)) with _ | _
    · simp only [mapFrom, hp, Bool.false_eq_true, if_false, Option.bind_eq_bind,
        Option.bind_eq_some_iff, Prod.exists] at hm
      obtain ⟨n, s₁, ha, hm⟩ := hm
      obtain ⟨hmem, -, hn, -, htot, -⟩ := Vm.alloc_eq_some ha
      obtain ⟨hpos, hbn, -, h₁⟩ := h.alloc ha
      have htn : t ≠ n := by rintro rfl; exact hb hbn
      have hppn : ppn (ofTable n) = n := by
        rw [ppn_ofTable, Nat.mod_eq_of_lt (lt_of_lt_of_le hn s.pageMap.fits)]
      rw [Vm.entry_setEntry_self, hppn] at hm
      have hmem₂ : ∀ u, pos u ≠ none → (s₁.setFrame n fun _ => 0).mem u = s₁.mem u :=
        fun u hu => Vm.mem_setFrame_of_ne (by rintro rfl; exact hu hpos)
      have h₂ : Settled (Function.update base n 1) (s₁.setFrame n fun _ => 0) live pos :=
        h₁.setOutside rfl hmem₂
      have h₃ := h₂.setEntry_aside (t := t) (i := tableIndex (level + 1) v) (e := ofTable n)
        (by rwa [Function.update_of_ne htn])
      have hfresh : PathHeld (Function.update base n 1) ((s₁.setFrame n fun _ => 0).setEntry t
          (tableIndex (level + 1) v) (ofTable n)) v level n := by
        cases level with
        | zero => simp [PathHeld]
        | succ level =>
          refine ⟨by simp, fun hpn => ?_⟩
          rw [Vm.entry_setEntry_of_ne (Or.inl htn.symm)] at hpn
          simp [Vm.entry] at hpn
      obtain ⟨base', haside, hkeep⟩ := ih h₃.settled hfresh hm
      have h₁₂ : Aside (Function.update base n 1) s (s₁.setFrame n fun _ => 0) live pos :=
        ⟨h₂, htot, fun u hu => by rw [hmem₂ u hu, hmem]⟩
      refine ⟨base', (h₁₂.trans h₃).trans haside, fun f hf => hkeep f ?_⟩
      rcases eq_or_ne f n with rfl | hfn
      · simp
      · rwa [Function.update_of_ne hfn]
    · simp only [mapFrom, hp, if_true] at hm
      exact ih h (hnext hp) hm

/-- The upward loop of `unmap`, on tables that the kernel holds. -/
theorem Settled.clearFrom_aside (h : Settled base s live pos)
    (hheld : ∀ j ≤ d, tables j < s.pageMap.totalPages ∧ base (tables j) ≠ 0 ∧
      ¬ MapsShared s live (tables j))
    (hne : ∀ i j, i < j → j ≤ d → tables i ≠ tables j)
    (hc : clearFrom tables v d s = some s') :
    ∃ base', Aside base' s s' live pos ∧
      ∀ f, (∀ j, 1 ≤ j → j ≤ d → f ≠ tables j) → base' f = base f := by
  induction d generalizing s base with
  | zero =>
    cases hc
    exact ⟨base, h.setEntry_aside (hheld 0 le_rfl).2.1, fun _ _ => rfl⟩
  | succ d ih =>
    obtain ⟨hlt, hb, hns⟩ := hheld (d + 1) le_rfl
    have h₁ := h.setEntry_aside (i := tableIndex (3 - (d + 1)) v) (e := 0) hb
    rw [clearFrom] at hc
    split_ifs at hc
    · cases hc
      exact ⟨base, h₁, fun _ _ => rfl⟩
    · obtain ⟨s₂, hs₂, hc⟩ := Option.bind_eq_some_iff.mp hc
      have h₂ := h₁.settled.free_aside hlt hb
        (fun hn => hns ((Aside.mapsShared_iff h h₁).mp hn)) hs₂
      have h₁₂ := h₁.trans h₂
      have hheld₂ : ∀ j ≤ d, tables j < s₂.pageMap.totalPages ∧
          Function.update base (tables (d + 1)) (base (tables (d + 1)) - 1) (tables j) ≠ 0 ∧
          ¬ MapsShared s₂ live (tables j) := by
        intro j hj
        obtain ⟨hlt', hb', hns'⟩ := hheld j (by omega)
        refine ⟨h₁₂.total ▸ hlt', ?_, fun hn => hns' ((Aside.mapsShared_iff h h₁₂).mp hn)⟩
        rwa [Function.update_of_ne (hne j (d + 1) (by omega) le_rfl)]
      obtain ⟨base', haside, hsame⟩ := ih h₂.settled hheld₂
        (fun i j hij hj => hne i j hij (by omega)) hc
      refine ⟨base', h₁₂.trans haside, fun f hf => ?_⟩
      rw [hsame f fun j h1 hj => hf j h1 (by omega),
        Function.update_of_ne (hf (d + 1) (by omega) le_rfl)]

/-- Unmapping a page of the kernel. -/
theorem Settled.unmap_aside (h : Settled base s live pos) (htree : Tree R pml4 s) (hv : v ∈ R)
    (hf : frameAt s pml4 v 4 = some f)
    (hheld : ∀ j ≤ 4, ∀ g, frameAt s pml4 v j = some g → base g ≠ 0 ∧ ¬ MapsShared s live g)
    (hu : unmap pml4 v s = some s') :
    ∃ base', Aside base' s s' live pos ∧
      ∀ g, (∀ j, 1 ≤ j → j ≤ 4 → frameAt s pml4 v j ≠ some g) → base' g = base g := by
  simp only [unmap, Option.bind_eq_bind, Option.bind_eq_some_iff] at hu
  obtain ⟨tables, hres, s₁, hs₁, hc⟩ := hu
  have htables : tables = chase s pml4 v := by
    rw [resolve] at hres
    split_ifs at hres
    exact (Option.some.inj hres).symm
  have hframe : ∀ j ≤ 4, frameAt s pml4 v j = some (tables j) := by
    rw [htables]
    exact fun j hj => chase_eq hf hj
  have hne : ∀ i j, i < j → j ≤ 4 → tables i ≠ tables j := by
    intro i j hij hj he
    have := (htree.unique hv hv (by omega) hj (hframe i (by omega)) (he ▸ hframe j hj)).1
    omega
  obtain ⟨hb, hns⟩ := hheld 4 le_rfl _ (hframe 4 le_rfl)
  have h₁ := h.free_aside (htree.used hv le_rfl (hframe 4 le_rfl)).1 hb hns hs₁
  have hheld₁ : ∀ j ≤ 3, tables j < s₁.pageMap.totalPages ∧
      Function.update base (tables 4) (base (tables 4) - 1) (tables j) ≠ 0 ∧
      ¬ MapsShared s₁ live (tables j) := by
    intro j hj
    obtain ⟨hb', hns'⟩ := hheld j (by omega) _ (hframe j (by omega))
    refine ⟨h₁.total ▸ (htree.used hv (by omega) (hframe j (by omega))).1, ?_,
      fun hn => hns' ((Aside.mapsShared_iff h h₁).mp hn)⟩
    rwa [Function.update_of_ne (hne j 4 (by omega) le_rfl)]
  obtain ⟨base', haside, hsame⟩ := h₁.settled.clearFrom_aside hheld₁
    (fun i j hij hj => hne i j hij (by omega)) hc
  refine ⟨base', h₁.trans haside, fun g hg => ?_⟩
  have hg' : ∀ j, 1 ≤ j → j ≤ 4 → g ≠ tables j := by
    rintro j h1 hj rfl
    exact hg j h1 hj (hframe j hj)
  rw [hsame g fun j h1 hj => hg' j h1 (by omega), Function.update_of_ne (hg' 4 (by decide) le_rfl)]

theorem map_of_table (ht : frameAt s pml4 v 3 = some t)
    (hp : present (s.entry t (tableIndex 0 v)) = false) :
    map pml4 v phys flags s = some (s.setEntry t (tableIndex 0 v) (ofPage phys flags)) := by
  obtain ⟨t₂, ht₂, hp₂, rfl⟩ := frameAt_succ_eq_some_iff.mp ht
  obtain ⟨t₁, ht₁, hp₁, rfl⟩ := frameAt_succ_eq_some_iff.mp ht₂
  obtain ⟨t₀, ht₀, hp₀, rfl⟩ := frameAt_succ_eq_some_iff.mp ht₁
  cases ht₀
  simp only [Nat.sub_zero, show 3 - 1 = 2 from rfl, show 3 - 2 = 1 from rfl] at *
  simp [map, mapFrom, hp₀, hp₁, hp₂, hp]

theorem chase_eq_of_table (ht : frameAt s pml4 v 3 = some t) (hd : d ≤ 3) :
    frameAt s pml4 v d = some (chase s pml4 v d) := by
  induction d with
  | zero => rfl
  | succ d ih =>
    obtain ⟨u, hu⟩ := exists_frameAt_of_le ht hd
    obtain ⟨w, hw, hp, hppn⟩ := frameAt_succ_eq_some_iff.mp hu
    have hc := ih (by omega)
    rw [hw] at hc
    cases hc
    rw [hu, chase, hppn]

/-- `unmap` in a page table that stays in use. -/
theorem unmap_of_table (ht : frameAt s pml4 v 3 = some t)
    (hlt : ∀ d ≤ 3, ∀ u, frameAt s pml4 v d = some u → u < s.pageMap.totalPages)
    {s₁ : Vm}
    (hfree : s.free (ppn (s.entry t (tableIndex 0 v))) = some s₁)
    (hclear : s₁.setEntry t (tableIndex 0 v) 0 = s')
    (hrest : checkForPresentEntries s' t = true) : unmap pml4 v s = some s' := by
  have hchase : ∀ d ≤ 3, frameAt s pml4 v d = some (chase s pml4 v d) :=
    fun d hd => chase_eq_of_table ht hd
  have h3 : chase s pml4 v 3 = t := by
    have := hchase 3 le_rfl
    rw [ht] at this
    exact (Option.some.inj this).symm
  have h4 : chase s pml4 v 4 = ppn (s.entry t (tableIndex 0 v)) := by
    rw [chase, h3]
  have hres : resolve s pml4 v = some (chase s pml4 v) := by
    rw [resolve, if_pos]
    simp only [List.all_cons, List.all_nil, Bool.and_true, Bool.and_eq_true, decide_eq_true_eq]
    exact ⟨hlt 1 (by decide) _ (hchase 1 (by decide)), hlt 2 (by decide) _ (hchase 2 (by decide)),
      hlt 3 (by decide) _ (hchase 3 (by decide))⟩
  simp only [unmap, hres, Option.bind_eq_bind, Option.bind_some, h4, hfree, clearFrom, h3]
  rw [Nat.sub_self, hclear, if_pos hrest]

end Kernel

end AddrSpace

end Koerix
