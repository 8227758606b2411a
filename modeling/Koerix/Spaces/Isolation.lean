import Koerix.Spaces.Basic

/-! # Demand mappings and other address spaces

`map` fills the first absent entry on its path without looking at who else uses
the table that the entry is in. After a fork the tables below the PML4 are
common until a write splits them, so a page that one process maps shows up in
the other. It stays invisible exactly when no table on the path is common.
-/

namespace Koerix

open GenericPagingTable AddrSpace

namespace AddrSpace

variable {s s' : Vm} {live : List ℕ} {pos : Positions} {base : ℕ → ℕ} {r virt phys d k t u : ℕ}
  {flags : MapFlags}

/-- A table that only `r` refers to is on no path of another address space. -/
theorem Settled.frameAt_ne (h : Settled base s live pos) (hr : r ∈ live) (hv : virt < userPages)
    (hone : PathUnshared s r virt) (hk : k ≤ 3) (hu : frameAt s r virt k = some u)
    {r' v' j : ℕ} (hr' : r' ∈ live) (hne : r' ≠ r) (hv' : v' < userPages) (hj : j ≤ 3)
    (ht : frameAt s r' v' j = some t) : t ≠ u := by
  rintro rfl
  have hs := h.frameAt_slot hr hv (by omega) hu
  have hs' := h.frameAt_slot hr' hv' (by omega) ht
  obtain rfl : j = k := by
    have := hs'.pos_eq.symm.trans hs.pos_eq
    simp only [Option.some.injEq, Prod.mk.injEq] at this
    exact this.1
  refine hne (h.sole_owner hr hr' hv hv' (by omega) hu ht fun i hi e he => ?_).1
  obtain ⟨w, hw, rfl, hp⟩ := entryAt_eq_some_iff.mp he
  obtain ⟨hlt, hsh, -⟩ := (h.entries (h.frameAt_slot hr hv (by omega) hw) hp).upper (by omega)
  refine ⟨hsh, hlt, ?_⟩
  rw [← h.getRefs_eq hlt]
  refine hone (i + 1) (Nat.succ_pos i) (by omega) _ ?_
  rw [frameAt_succ, he]
  rfl

/-- Where no table on the path is common, `map` is invisible to the others. -/
theorem Settled.translate_map_of_unshared (h : Settled base s live pos) (hr : r ∈ live)
    (hv : virt < userPages) (hm : AddrSpace.map r virt phys flags s = some s')
    (hone : PathUnshared s r virt) {r' v' : ℕ} (hr' : r' ∈ live) (hne : r' ≠ r)
    (hv' : v' < userPages) : translate s' r' v' = translate s r' v' := by
  obtain ⟨k, u, -, hk, hu, hfree, hmf⟩ := mapFrom_descend (d := 0) rfl rfl hm
  have hs := h.frameAt_slot hr hv (by omega) hu
  have hg := mapFrom_grown (h.counter_ne_zero hs.pos_eq) hfree hmf
  have hw : walk s' r' v' = walk s r' v' := by
    refine walk_congr fun j hj t ht => hg.other t _ ?_ (Or.inl ?_)
    · exact h.counter_ne_zero (h.frameAt_slot hr' hv' hj ht).pos_eq
    · exact h.frameAt_ne hr hv hone hk hu hr' hne hv' (by omega) ht
  rw [translate, translate, hw]

/-- A common table on the path makes the new page appear in another address space. -/
theorem Settled.translate_map_of_shared (h : Settled base s live pos) (hr : r ∈ live)
    (hv : virt < userPages) (hm : AddrSpace.map r virt phys flags s = some s') (hd : 0 < d)
    (hd' : d ≤ 3)
    (ht : frameAt s r virt d = some t) (hshared : s.pageMap.getRefs t ≠ 1) :
    ∃ r' ∈ live, r' ≠ r ∧ translate s r' virt = none ∧ translate s' r' virt ≠ none := by
  obtain ⟨d, rfl⟩ : ∃ c, d = c + 1 := ⟨d - 1, by omega⟩
  have hpos := (h.frameAt_slot hr hv (by omega) ht).pos_eq
  have htwo : 2 ≤ count s pos (restHeld base live) t := by
    have hused := h.used hpos
    rw [h.getRefs_eq (h.bounded hpos).1] at hshared
    omega
  obtain ⟨r', hr', hne, hf'⟩ := h.exists_other_root hpos htwo r
  refine ⟨r', hr', hne, ?_⟩
  obtain ⟨k, u, -, hk, hu, hfree, hmf⟩ := mapFrom_descend (d := 0) rfl rfl hm
  have hs := h.frameAt_slot hr hv (by omega) hu
  have hg := mapFrom_grown (h.counter_ne_zero hs.pos_eq) hfree hmf
  -- the first absent entry is below the common table, so both paths lead to it
  have hdk : d + 1 ≤ k := by
    by_contra hlt
    rw [present_of_frameAt ht (by omega) hu] at hfree
    cases hfree
  have hu' : frameAt s r' virt k = some u := by
    rw [frameAt_eq_of_le ((hf' virt rfl).trans ht.symm) hdk, hu]
  constructor
  · rw [translate, Option.map_eq_none_iff]
    by_contra hw
    obtain ⟨es, hw⟩ := Option.ne_none_iff_exists'.mp hw
    rw [present_of_frameAt (frameAt_four hw) (by omega) hu'] at hfree
    cases hfree
  · have hu'' : frameAt s' r' virt k = some u := by
      rw [← hu']
      refine frameAt_congr fun j hj w hw => ?_
      have hsw := h.frameAt_slot hr' hv (by omega) hw
      rw [hg.other w _ (h.counter_ne_zero hsw.pos_eq) (Or.inl (hs.ne_of_depth hsw hj))]
      exact ⟨rfl, fun _ => rfl⟩
    obtain ⟨es, hchain, -⟩ := hg.chain
    obtain ⟨e, he⟩ := exists_entryAt_of_walkFrom (by omega) hu'' hchain
    obtain ⟨e₀, e₁, e₂, hw⟩ := exists_walk he
    simp [translate, hw]

theorem Settled.translate_map_iff (h : Settled base s live pos) (hr : r ∈ live)
    (hv : virt < userPages) (hm : AddrSpace.map r virt phys flags s = some s') :
    (∀ r' ∈ live, r' ≠ r → ∀ v' < userPages, translate s' r' v' = translate s r' v') ↔
      PathUnshared s r virt := by
  constructor
  · intro hall d hd hd' t ht
    by_contra hshared
    obtain ⟨r', hr', hne, hnone, hsome⟩ := h.translate_map_of_shared hr hv hm hd hd' ht hshared
    exact hsome ((hall r' hr' hne virt hv).trans hnone)
  · exact fun hone r' hr' hne v' hv' => h.translate_map_of_unshared hr hv hm hone hr' hne hv'

theorem Settled.alloc_setFrame {s₁ : Vm} {n : ℕ} (h : Settled base s live pos)
    (ha : s.alloc = some (n, s₁)) (content : ℕ → BitVec 64) :
    Settled (Function.update base n 1) (s₁.setFrame n content) live pos ∧
      (∀ r ∈ live, ∀ v < userPages, translate (s₁.setFrame n content) r v = translate s r v) ∧
      ∀ r ∈ live, ∀ v < userPages,
        (PathUnshared (s₁.setFrame n content) r v ↔ PathUnshared s r v) := by
  obtain ⟨hpos, -, -, h₁⟩ := h.alloc ha
  obtain ⟨hmem, -, -, -, ht, hp⟩ := Vm.alloc_eq_some ha
  have hmem' : ∀ u, pos u ≠ none → (s₁.setFrame n content).mem u = s₁.mem u :=
    fun u hu => Vm.mem_setFrame_of_ne (by rintro rfl; exact hu hpos)
  have hent : ∀ t i d q, Slot pos t i d q → (s₁.setFrame n content).entry t i = s.entry t i := by
    intro t i d q hs
    rw [Vm.entry_congr (hmem' t (by simp [hs.pos_eq])), Vm.entry_congr (congrFun hmem t)]
  refine ⟨h₁.setOutside rfl hmem', fun r hr v hv => ?_, fun r hr v hv => ?_⟩
  · rw [translate, translate, h.walk_eq hr hv hent]
  · have hframe : ∀ d ≤ 3, frameAt (s₁.setFrame n content) r v d = frameAt s r v d := by
      intro d hd
      refine frameAt_congr fun k hk t hf => ?_
      rw [hent t _ k _ (h.frameAt_slot hr hv (by omega) hf)]
      exact ⟨rfl, fun _ => rfl⟩
    refine forall_congr' fun d => forall_congr' fun _ => forall_congr' fun hd => ?_
    rw [hframe d hd]
    refine forall_congr' fun t => forall_congr' fun hf => ?_
    have htn : t ≠ n := by
      rintro rfl
      simpa [hpos] using (h.frameAt_slot hr hv (by omega) hf).pos_eq
    rw [Vm.pageMap_setFrame, Counters.getRefs, Counters.getRefs, ht, hp, Function.update_of_ne htn]

end AddrSpace

namespace Spaces

/-- A call that maps the page `virt` of the address space with index `a`. -/
inductive Call.Maps (a virt : ℕ) : Call → Prop
  | fresh (content : ℕ → BitVec 64) (flags : MapFlags) : Maps a virt (.map a virt content flags)
  | device (phys : ℕ) (flags : MapFlags) : Maps a virt (.mapDevice a virt phys flags)

/-- Mapping a page in one address space leaves the translations of all others alone exactly when
every table on its path below the PML4 has one reference. -/
theorem map_invisible_iff_unshared (vm : Vm) (s : Spaces)
    (h : Run.Reachable step (Lawful vm) (initial vm) s) (a r virt : ℕ)
    (ha : s.live[a]? = some r) (hv : virt < userPages) (c : Call) (hc : c.Maps a virt)
    (s' : Spaces) (hs : s.step c = some s') :
    (∀ r' ∈ s.live, r' ≠ r → ∀ v < userPages, translate s'.vm r' v = translate s.vm r' v) ↔
      PathUnshared s.vm r virt := by
  obtain ⟨base, pos, hinv⟩ := LawfulInv.reachable h
  have hset := hinv.settled
  have hr := List.mem_of_getElem? ha
  cases hc with
  | fresh content flags =>
    obtain ⟨r₀, phys, vm₁, vm', ha', halloc, hm, rfl⟩ := step_map hs
    obtain rfl : r = r₀ := Option.some.inj (ha.symm.trans ha')
    obtain ⟨hset', htr, hpath⟩ := hset.alloc_setFrame halloc content
    rw [← hpath r hr virt hv, ← hset'.translate_map_iff hr hv hm]
    refine forall_congr' fun r' => forall_congr' fun hr' => forall_congr' fun _ =>
      forall_congr' fun v => forall_congr' fun hv' => ?_
    rw [htr r' hr' v hv']
  | device phys flags =>
    obtain ⟨r₀, vm', ha', hm, rfl⟩ := step_mapDevice hs
    obtain rfl : r = r₀ := Option.some.inj (ha.symm.trans ha')
    exact hset.translate_map_iff hr hv hm

/-- The neighbour of the page, mapped by the first address space. -/
def neighbour : Call := .map 0 1 (fun _ => 0) ⟨true, true, false, false, false⟩

def afterMap : Spaces := (afterFork.step neighbour).get (by decide +kernel)

/-- The page that one address space maps right after a fork appears in the other. -/
theorem not_map_invisible : ¬ ∀ (vm : Vm) (s : Spaces),
    Run.Reachable step (Lawful vm) (initial vm) s → ∀ a r virt, s.live[a]? = some r →
    virt < userPages → translate s.vm r virt = none → ∀ (c : Call), c.Maps a virt →
    ∀ s', s.step c = some s' →
    ∀ r' ∈ s.live, r' ≠ r → ∀ v < userPages, translate s'.vm r' v = translate s.vm r' v := by
  intro h
  have hlive : afterFork.live = [0, 5] := by decide +kernel
  have hall := h (blank 16) afterFork reachable_afterFork 0 0 1 (by rw [hlive]; rfl) (by decide)
    (by decide +kernel) neighbour (.fresh _ _) afterMap (Option.some_get _).symm 5
    (by rw [hlive]; decide) (by decide) 1 (by decide)
  have hsome : (translate afterMap.vm 5 1).isSome = true := by decide +kernel
  have hnone : translate afterFork.vm 5 1 = none := by decide +kernel
  rw [hall, hnone] at hsome
  cases hsome

/-- What the equivalence says there: the table below the PML4 has two users. -/
theorem map_invisible_iff_unshared_afterFork :
    (∀ r' ∈ afterFork.live, r' ≠ 0 → ∀ v < userPages,
      translate afterMap.vm r' v = translate afterFork.vm r' v) ↔
        PathUnshared afterFork.vm 0 1 :=
  map_invisible_iff_unshared (blank 16) afterFork reachable_afterFork 0 0 1 (by decide +kernel)
    (by decide) neighbour (.fresh _ _) afterMap (Option.some_get _).symm

end Spaces

end Koerix
