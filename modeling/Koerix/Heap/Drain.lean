import Koerix.Heap.Capacity
import Koerix.Heap.Clients

/-! # A heap without live pointers

There are as many used blocks as live pointers. The last block is used, so the
heap is empty once all pointers have been freed, in whatever order. That the
break stays in its region is not assumed: a `kmalloc` beyond it does not return.
-/

namespace Koerix

open ByteMemory

namespace Heap

namespace Clients

variable {s s' : Clients} {v : View} {bs : List Block} {c : Call}

/-- Sizes are positive as increments of the break, clients store into their own payload, and a
block that ends the heap on a page boundary is not freed. -/
def Modest (s : Clients) : Call → Prop
  | .kmalloc size _ _ => size + headerSize < 2 ^ 63
  | c => Steady s c

instance (s : Clients) : DecidablePred (Modest s)
  | .kmalloc size _ _ => inferInstanceAs (Decidable (size + headerSize < 2 ^ 63))
  | .kfree i => inferInstanceAs (Decidable (Steady s (.kfree i)))
  | .store i offset b => inferInstanceAs (Decidable (Steady s (.store i offset b)))

theorem Inv.steady (h : Inv s v bs) (hok : Modest s c) (hs : s.step c = some s') : Steady s c := by
  cases c with
  | kmalloc size line function =>
    obtain ⟨r, hm, -⟩ := Option.bind_eq_some_iff.mp hs
    exact ⟨hok, room_of_kmalloc h.repr hok hm⟩
  | kfree i => exact hok
  | store i offset b => exact hok

theorem Inv.used_eq (h : Inv s v bs) (hlen : s.live.length = used bs) (hok : Modest s c)
    (hs : s.step c = some s') : ∃ v' bs', Inv s' v' bs' ∧ s'.live.length = used bs' := by
  have hsteady := h.steady hok hs
  cases c with
  | kmalloc size line function =>
    obtain ⟨ptr, v', bs', hlive, h', -, -, -, hused⟩ := h.kmalloc hsteady hs
    refine ⟨v', bs', h', ?_⟩
    rw [hlive, List.length_append, hlen, hused]
    rfl
  | kfree i =>
    obtain ⟨s'', v', bs', hs'', h', -, -, hlive, hused⟩ := h.kfree hsteady
    rw [hs] at hs''
    cases hs''
    exact ⟨v', bs', h', by omega⟩
  | store i offset b =>
    obtain ⟨⟨v', h'⟩, -⟩ := h.store hsteady hs
    have hlive : s'.live = s.live := by
      obtain ⟨k, -, hs⟩ := Option.bind_eq_some_iff.mp hs
      obtain ⟨vm, -, hs⟩ := Option.bind_eq_some_iff.mp hs
      cases hs
      rfl
    exact ⟨v', bs, h', hlive ▸ hlen⟩

theorem Quiet.eq_nil (hq : Quiet bs) (hused : used bs = 0) : bs = [] := by
  rcases List.eq_nil_or_concat bs with rfl | ⟨xs, b, rfl⟩
  · rfl
  · have hb := hq.tail b (by simp)
    simp [used, hb] at hused

/-- In such runs every pointer can be freed, and once all are, the heap has given everything
back. -/
theorem drained_of_modest (s₀ s : Clients) (h₀ : Initial s₀)
    (h : Run.Reachable step Modest s₀ s) :
    (∀ i, Modest s (.kfree i) → ∃ s', s.step (.kfree i) = some s') ∧
    (s.live = [] → s.heap.heapStart = 0 ∧ s.heap.heapLast = 0 ∧
      s.heap.kheapBreak = kheapStart) := by
  obtain ⟨v, bs, hinv, hlen⟩ : ∃ v bs, Inv s v bs ∧ s.live.length = used bs := by
    refine h.invariant (P := fun s => ∃ v bs, Inv s v bs ∧ s.live.length = used bs)
      ⟨_, _, h₀.inv, by rw [h₀.live]; rfl⟩ ?_
    rintro s c s' ⟨v, bs, hinv, hlen⟩ hok hs
    exact hinv.used_eq hlen hok hs
  refine ⟨fun i hok => ?_, fun hlive => ?_⟩
  · obtain ⟨s', -, -, hs', -⟩ := hinv.kfree hok
    exact ⟨s', hs'⟩
  · rw [hlive] at hlen
    obtain rfl := Quiet.eq_nil hinv.quiet hlen.symm
    exact ⟨hinv.repr.start, hinv.repr.last, hinv.repr.brk⟩

/-- Of three blocks the second is freed and cropped for a fourth. The first is freed, and with the
third the free space behind the fourth is merged and given back. -/
def drainCalls : List Call :=
  [.kmalloc 100 1 0, .kmalloc 200 2 0, .kmalloc 300 3 0, .kfree 1, .kmalloc 50 4 0, .kfree 0,
    .kfree 0]

set_option maxRecDepth 20000 in
/-- Then the fourth is freed, too. -/
theorem drained_of_modest_kmalloc :
    ∃ s s', Run.guardedRun step Modest boot drainCalls = some s ∧
      s.step (.kfree 0) = some s' ∧ s'.heap.heapStart = 0 ∧ s'.heap.heapLast = 0 ∧
      s'.heap.kheapBreak = kheapStart := by
  have hrun : (Run.guardedRun step Modest boot drainCalls).map
      (fun s => (s.live.length, decide (Modest s (.kfree 0)))) = some (1, true) := by decide_cbv
  obtain ⟨s, hs, he⟩ := Option.map_eq_some_iff.mp hrun
  obtain ⟨hlen, hok⟩ := Prod.mk.inj he
  have hreach := Run.reachable_of_guardedRun hs
  have hfree : Modest s (.kfree 0) := of_decide_eq_true hok
  obtain ⟨s', hs'⟩ := (drained_of_modest boot s boot_initial hreach).1 0 hfree
  have hlive : s'.live = [] := by
    obtain ⟨k, -, hs'⟩ := Option.bind_eq_some_iff.mp hs'
    obtain ⟨heap, -, hs'⟩ := Option.bind_eq_some_iff.mp hs'
    cases hs'
    rw [← List.length_eq_zero_iff, List.length_eraseIdx_of_lt (by omega), hlen]
  exact ⟨s, s', hs, hs', (drained_of_modest boot s' boot_initial (hreach.step hfree hs')).2 hlive⟩

/-- The first of two blocks that end on page boundaries cannot be freed after the second. -/
theorem not_drained_of_lawful : ¬ ∀ s₀ s : Clients, Initial s₀ → Run.Reachable step Lawful s₀ s →
    (∀ i, i < s.live.length → ∃ s', s.step (.kfree i) = some s') ∧
    (s.live = [] → s.heap.heapStart = 0 ∧ s.heap.heapLast = 0 ∧
      s.heap.kheapBreak = kheapStart) := by
  intro h
  obtain ⟨s, -, hs, -, hlive, hnone, -⟩ := exists_boundaryCalls
  obtain ⟨s', hs'⟩ :=
    (h boot s boot_initial (Run.reachable_of_guardedRun hs)).1 0 (by simp [hlive])
  rw [hs'] at hnone
  cases hnone

end Clients

end Heap

end Koerix
