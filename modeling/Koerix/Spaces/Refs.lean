import Koerix.Spaces.Basic
import Mathlib.Data.Set.Card

/-! # Reference counts are exact

Under fork and copy-on-write, the counter of every frame that `alloc` hands out
is the number of table entries that point to it, each table taken once however
many address spaces share it, plus one for the PML4 of a live address space.
-/

namespace Koerix

open GenericPagingTable AddrSpace

namespace Spaces

/-- `t` is a table at depth `d` of some live address space. -/
def LiveTable (s : Spaces) (t d : ℕ) : Prop :=
  d < 4 ∧ ∃ r ∈ s.live, ∃ virt < userPages, frameAt s.vm r virt d = some t

/-- The present lower-half entries of live tables that point to `f`. -/
def references (s : Spaces) (f : ℕ) : Set (ℕ × ℕ) :=
  {k | (∃ d, s.LiveTable k.1 d ∧ k.2 < entryCount (3 - d)) ∧
    present (s.vm.entry k.1 k.2) = true ∧ ppn (s.vm.entry k.1 k.2) = f}

variable {s : Spaces} {base : ℕ → ℕ} {pos : Positions} {t i d f : ℕ}

theorem liveTable_iff (h : Settled base s.vm s.live pos) :
    s.LiveTable t d ↔ d < 4 ∧ ∃ q, pos t = some (d, q) := by
  constructor
  · rintro ⟨hd, r, hr, virt, hv, hf⟩
    exact ⟨hd, _, (h.frameAt_slot hr hv hd hf).pos_eq⟩
  · rintro ⟨hd, q, hp⟩
    obtain ⟨r, hr, hf⟩ := h.exists_root hp
    exact ⟨hd, r, hr, pageAt d q, h.pageAt_lt hp, hf _ (prefixAt_pageAt d q)⟩

theorem references_eq (h : Settled base s.vm s.live pos) (hn : AllCounted s.vm s.live) :
    s.references f = ((slots s.vm.pageMap.totalPages pos).filter
      fun k => target s.vm k = some f : Finset (ℕ × ℕ)) := by
  ext ⟨t, i⟩
  simp only [references, Set.mem_ofPred_eq, Finset.coe_filter, mem_slots, target_eq_some_iff]
  constructor
  · rintro ⟨⟨d, hl, hi⟩, hp, hf⟩
    obtain ⟨hd, q, hpos⟩ := (liveTable_iff h).mp hl
    have hs : Slot pos t i d q := ⟨hpos, hd, hi⟩
    exact ⟨⟨h.slot_lt hs, d, q, hs⟩, ⟨hp, (h.counted_entry hn hs hp).1⟩, hf⟩
  · rintro ⟨⟨-, d, q, hs⟩, ⟨hp, -⟩, hf⟩
    exact ⟨⟨d, (liveTable_iff h).mpr ⟨hs.depth, q, hs.pos_eq⟩, hs.index⟩, hp, hf⟩

/-- In every run of `create`, `map`, `clone` and `triggerCow` on private memory, the counter of
every frame that was free at first is its number of references. -/
theorem counter_eq_references (vm : Vm) (s : Spaces)
    (h : Run.Reachable step Private (initial vm) s) (f : ℕ) (hlt : f < vm.pageMap.totalPages)
    (hfree : vm.pageMap.pagemap f = 0) :
    ((s.vm.pageMap.pagemap f).toNat : ℕ∞) =
      (s.references f).encard + if f ∈ s.live then 1 else 0 := by
  obtain ⟨pos, hinv⟩ := PrivateInv.reachable h
  have hset := hinv.settled
  rw [references_eq hset hinv.counted, Set.encard_coe_eq_coe_finsetCard,
    hset.counter_eq (hinv.total ▸ hlt), count, InDegree.deg]
  simp [restHeld, reserved, hlt, hfree]

/-- After a fork the table below both PML4s has two references. -/
theorem counter_eq_references_fork : ((afterFork.vm.pageMap.pagemap 2).toNat : ℕ∞) =
    (afterFork.references 2).encard + if 2 ∈ afterFork.live then 1 else 0 := by
  have hguard : Run.Guarded step Private (initial (blank 16)) forkCalls := by decide +kernel
  exact counter_eq_references (blank 16) afterFork (hguard.reachable (Option.some_get _).symm) 2
    (by decide) (by decide)

end Spaces

end Koerix
