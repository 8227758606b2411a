import Koerix.AddrSpace.Shared
import Koerix.Spaces.Basic

/-! # What a write fault establishes

On private memory, `triggerCow` reports whether the page may be written, which its
leaf entry decides alone: the entries above it may always be. If so, every entry on
the path can be written through and holds the only reference to its frame.
-/

namespace Koerix

open GenericPagingTable AddrSpace

namespace AddrSpace

variable {s : Vm} {live : List ℕ} {pos : Positions} {base : ℕ → ℕ} {r virt d : ℕ}
  {e : GenericPagingTable}

namespace Settled

theorem slot_of_entryAt (h : Settled base s live pos) (hr : r ∈ live) (hv : virt < userPages)
    (hd : d < 4) (he : entryAt s r virt d = some e) :
    ∃ t i q, Slot pos t i d q ∧ s.entry t i = e ∧ present e = true := by
  obtain ⟨t, ht, hte, hp⟩ := entryAt_eq_some_iff.mp he
  exact ⟨t, _, _, h.frameAt_slot hr hv hd ht, hte, hp⟩

/-- Only the leaf decides whether a page may be written. -/
theorem writable_iff_leaf (h : Settled base s live pos) (hr : r ∈ live) (hv : virt < userPages) :
    (∃ p, view s r virt = some p ∧ p.writable = true) ↔
      ∃ e, entryAt s r virt 3 = some e ∧ (write e = true ∨ cowWasWritable e = true) := by
  have hupper : ∀ d < 3, ∀ e, entryAt s r virt d = some e → writable e = true := by
    intro d hd e he
    obtain ⟨t, i, q, hs, rfl, hp⟩ := h.slot_of_entryAt hr hv (by omega) he
    exact ((h.entries hs hp).upper hd).2.2.1
  constructor
  · rintro ⟨p, hp, hw⟩
    obtain ⟨es, hes, rfl⟩ := Option.map_eq_some_iff.mp hp
    obtain ⟨e₀, e₁, e₂, e₃, -, -, -, h₃, rfl⟩ := walk_eq_some_iff.mp hes
    refine ⟨e₃, h₃, ?_⟩
    have hleaf : writable e₃ = true := by
      simp only [pageOf, List.all_cons, List.all_nil, Bool.and_eq_true] at hw
      exact hw.2.2.2.1
    simpa [writable] using hleaf
  · rintro ⟨e, he, hw⟩
    obtain ⟨e₀, e₁, e₂, hes⟩ := exists_walk he
    obtain ⟨_, _, _, _, h₀, h₁, h₂, -, hl⟩ := walk_eq_some_iff.mp hes
    simp only [List.cons.injEq, and_true] at hl
    obtain ⟨rfl, rfl, rfl, rfl⟩ := hl
    refine ⟨_, by rw [view, hes]; rfl, ?_⟩
    simp only [pageOf, List.all_cons, List.all_nil, hupper 0 (by decide) _ h₀,
      hupper 1 (by decide) _ h₁, hupper 2 (by decide) _ h₂, Bool.true_and, Bool.and_true]
    simpa [writable] using hw

theorem counter_eq_one (h : Settled base s live pos) (hn : AllCounted s live) (hr : r ∈ live)
    (hv : virt < userPages) (hd : d < 4) (he : entryAt s r virt d = some e)
    (hw : write e = true) : s.pageMap.pagemap (ppn e) = 1 := by
  obtain ⟨t, i, q, hs, rfl, hp⟩ := h.slot_of_entryAt hr hv hd he
  obtain ⟨hsh, hlt⟩ := h.counted_entry hn hs hp
  have hone := (h.entries hs hp).owned hw hsh hlt
  rw [← h.counter_eq hlt] at hone
  exact UInt8.toNat_inj.mp hone

end Settled

end AddrSpace

namespace Spaces

/-- Every entry on the path of the page has its write bit, and its frame one reference. -/
def OwnsPath (vm : Vm) (r virt : ℕ) : Prop :=
  ∃ es, walk vm r virt = some es ∧ es.length = 4 ∧
    ∀ e ∈ es, write e = true ∧ vm.pageMap.pagemap (ppn e) = 1

/-- In every run on private memory, `triggerCow` returns true exactly on pages whose leaf entry
has the write bit or had it before a fork. It then makes the path writable and the address space
its only owner. No address space sees a difference in either case. -/
theorem triggerCow_iff_writable (vm : Vm) (s : Spaces)
    (h : Run.Reachable step Private (initial vm) s) (r virt : ℕ) (hr : r ∈ s.live)
    (hv : virt < userPages) :
    (3 < s.vm.pageMap.freeFrames → ∃ b vm', AddrSpace.triggerCow r virt s.vm = some (b, vm')) ∧
    ∀ b vm', AddrSpace.triggerCow r virt s.vm = some (b, vm') →
      (b = true ↔ ∃ e, entryAt s.vm r virt 3 = some e ∧
        (write e = true ∨ cowWasWritable e = true)) ∧
      (b = true → OwnsPath vm' r virt) ∧
      ∀ r' ∈ s.live, ∀ v < userPages, view vm' r' v = view s.vm r' v := by
  obtain ⟨pos, hinv⟩ := PrivateInv.reachable h
  have hset := hinv.settled
  refine ⟨hset.exists_triggerCow hr hv, fun b vm' hc => ?_⟩
  obtain ⟨base', pos', hset', hresh, hiff, hwrite, -, hbase⟩ := hset.triggerCow hr hv hc
  obtain rfl := hbase hinv.counted
  have hcounted := hresh.allCounted hset.toShape hinv.counted
  refine ⟨hiff.trans (hset.writable_iff_leaf hr hv), fun hb => ?_,
    fun r' hr' v hv' => hresh.view_eq hset.toShape hr' hv'⟩
  obtain ⟨es, hes, hall⟩ := hwrite hb
  obtain ⟨e₀, e₁, e₂, e₃, h₀, h₁, h₂, h₃, rfl⟩ := walk_eq_some_iff.mp hes
  simp only [List.all_cons, List.all_nil, Bool.and_eq_true, and_true] at hall
  refine ⟨_, hes, rfl, fun e he => ?_⟩
  have hone := fun d hd e he hw => hset'.counter_eq_one (d := d) (e := e) hcounted hr hv hd he hw
  simp only [List.mem_cons, List.not_mem_nil, or_false] at he
  rcases he with rfl | rfl | rfl | rfl
  · exact ⟨hall.1, hone 0 (by decide) _ h₀ hall.1⟩
  · exact ⟨hall.2.1, hone 1 (by decide) _ h₁ hall.2.1⟩
  · exact ⟨hall.2.2.1, hone 2 (by decide) _ h₂ hall.2.2.1⟩
  · exact ⟨hall.2.2.2, hone 3 (by decide) _ h₃ hall.2.2.2⟩

/-- The first write after a fork gets the child its own copy of the page. -/
theorem triggerCow_iff_writable_afterFork : ∃ vm',
    AddrSpace.triggerCow 5 0 afterFork.vm = some (true, vm') ∧ OwnsPath vm' 5 0 := by
  have hguard : Run.Guarded step Private (initial (blank 16)) forkCalls := by decide +kernel
  obtain ⟨hexists, hspec⟩ := triggerCow_iff_writable (blank 16) afterFork
    (hguard.reachable (Option.some_get _).symm) 5 0 (by decide +kernel) (by decide)
  obtain ⟨b, vm', hc⟩ := hexists (by decide +kernel)
  obtain ⟨hiff, howns, -⟩ := hspec b vm' hc
  have hleaf : (entryAt afterFork.vm 5 0 3).map (fun e => write e || cowWasWritable e) =
      some true := by decide +kernel
  obtain ⟨e, he, hw⟩ := Option.map_eq_some_iff.mp hleaf
  obtain rfl := hiff.mpr ⟨e, he, by simpa using hw⟩
  exact ⟨vm', hc, howns rfl⟩

end Spaces

end Koerix
