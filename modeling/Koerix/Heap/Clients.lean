import Mathlib
import Koerix.Heap.Free
import Koerix.Lib.Run

/-! # The heap and its clients

Runs of `kmalloc`, `kfree` and stores of the clients into their own memory,
from the empty heap. They keep the block list, the mapped pages and the
payloads apart as long as no block that ends the heap on a page boundary is
freed: `kbrk` then unmaps the page behind it too, which frees a frame that
belongs to someone else.
-/

namespace Koerix

open ByteMemory

namespace Heap

/-- The heap, and the pointers handed out with the sizes asked for. -/
structure Clients where
  heap : Heap
  live : List (ℕ × ℕ)

inductive Call
  | kmalloc (size line function : ℕ)
  | kfree (i : ℕ)
  | store (i offset : ℕ) (b : UInt8)

namespace Clients

def step (s : Clients) : Call → Option Clients
  | .kmalloc size line function => do
    let (ptr, heap) ← s.heap.kmalloc size line function
    return ⟨heap, s.live ++ [(ptr, size)]⟩
  | .kfree i => do
    let k ← s.live[i]?
    let heap ← s.heap.kfree k.1
    return ⟨heap, s.live.eraseIdx i⟩
  | .store i offset b => do
    let k ← s.live[i]?
    let vm ← AddrSpace.storeByte s.heap.pml4 (k.1 + offset) b s.heap.vm
    return { s with heap := { s.heap with vm } }

/-- Before the first `kmalloc`: no page of the region is mapped. -/
structure Initial (s : Clients) : Prop where
  shows : Shows s.heap.pml4 s.heap.vm fun _ => none
  brk : s.heap.kheapBreak = kheapStart
  start : s.heap.heapStart = 0
  last : s.heap.heapLast = 0
  calls : s.heap.calls = []
  live : s.live = []

/-- Sizes do not wrap, the break stays in its region, only live pointers are freed, and clients
store into their own payload. -/
def Lawful (s : Clients) : Call → Prop
  | .kmalloc size _ _ => size + headerSize < 2 ^ 63 ∧ s.heap.Room size
  | .kfree i => i < s.live.length
  | .store i offset _ => ∀ k ∈ s.live[i]?, offset < k.2

/-- In addition, a block that ends the heap on a page boundary is not freed. -/
def Steady (s : Clients) : Call → Prop
  | .kfree i => i < s.live.length ∧ ∀ k ∈ s.live[i]?, k.1 = s.heap.heapLast + headerSize →
      s.heap.kheapBreak % 4096 ≠ 0
  | c => Lawful s c

instance (s : Clients) : DecidablePred (Lawful s)
  | .kmalloc _ _ _ => inferInstanceAs (Decidable (_ ∧ _))
  | .kfree _ => inferInstanceAs (Decidable (_ < _))
  | .store i offset _ => inferInstanceAs (Decidable (∀ k ∈ s.live[i]?, offset < k.2))

instance (s : Clients) : DecidablePred (Steady s)
  | .kfree i => inferInstanceAs (Decidable (_ ∧ ∀ k ∈ s.live[i]?,
      k.1 = s.heap.heapLast + headerSize → s.heap.kheapBreak % 4096 ≠ 0))
  | .kmalloc size line function =>
    inferInstanceAs (Decidable (Lawful s (.kmalloc size line function)))
  | .store i offset b => inferInstanceAs (Decidable (Lawful s (.store i offset b)))

/-- The live pointers are those of used blocks with enough room. -/
structure Held (bs : List Block) (live : List (ℕ × ℕ)) : Prop where
  nodup : (live.map Prod.fst).Nodup
  block : ∀ k ∈ live, ∃ a n, k.1 = a + headerSize ∧ (a, ⟨n, false⟩) ∈ placed kheapStart bs ∧
    k.2 + headerSize ≤ n

/-- The invariant of all runs. -/
structure Inv (s : Clients) (v : View) (bs : List Block) : Prop where
  repr : Repr s.heap v bs
  quiet : Quiet bs
  held : Held bs s.live
  calls : ∀ c ∈ s.heap.calls, c.Proper

variable {s s' : Clients} {v v' : View} {bs bs' : List Block} {c : Call} {k : ℕ × ℕ}

namespace Held

theorem nil : Held bs [] := ⟨by simp, by simp⟩

theorem payload {live : List (ℕ × ℕ)} (h : Held bs live) (hk : k ∈ live) :
    ∃ l ∈ placed kheapStart bs, l.2.available = false ∧ l.1 + headerSize = k.1 ∧
      k.1 + k.2 ≤ l.1 + l.2.size := by
  obtain ⟨a, n, he, hmem, hn⟩ := h.block k hk
  exact ⟨_, hmem, rfl, he.symm, by dsimp only; omega⟩

theorem allocated {live : List (ℕ × ℕ)} {a size : ℕ} (h : Held bs live)
    (ha : Allocated bs bs' a size) : Held bs' (live ++ [(a + headerSize, size)]) where
  nodup := by
    rw [List.map_append, List.nodup_append]
    refine ⟨h.nodup, by simp, fun x hx y hy => ?_⟩
    obtain ⟨k, hk, rfl⟩ := List.mem_map.mp hx
    obtain ⟨b, n, he, hmem, -⟩ := h.block k hk
    have hne := (ha.keeps _ hmem rfl).2
    obtain rfl : y = a + headerSize := by simpa using hy
    dsimp only at hne
    omega
  block k hk := by
    rcases List.mem_append.mp hk with hk | hk
    · obtain ⟨b, n, he, hmem, hn⟩ := h.block k hk
      exact ⟨b, n, he, (ha.keeps _ hmem rfl).1, hn⟩
    · obtain rfl : k = (a + headerSize, size) := by simpa using hk
      obtain ⟨n, hmem, hn⟩ := ha.fresh
      exact ⟨a, n, rfl, hmem, hn⟩

theorem ne_of_ne {live : List (ℕ × ℕ)} {i j : ℕ} {l : ℕ × ℕ} (h : Held bs live)
    (hi : live[i]? = some k) (hj : live[j]? = some l) (hne : j ≠ i) : l.1 ≠ k.1 := by
  intro he
  have hmap : (live.map Prod.fst)[j]? = (live.map Prod.fst)[i]? := by
    rw [List.getElem?_map, List.getElem?_map, hi, hj, Option.map_some, Option.map_some, he]
  have hlt : j < (live.map Prod.fst).length := by
    rw [List.length_map]
    exact (List.getElem?_eq_some_iff.mp hj).1
  exact hne ((List.getElem?_inj hlt h.nodup).mp hmap)

theorem freed {live : List (ℕ × ℕ)} {i a : ℕ} (h : Held bs live) (hi : live[i]? = some k)
    (ha : k.1 = a + headerSize)
    (hkeep : ∀ l ∈ placed kheapStart bs, l.2.available = false → l.1 ≠ a →
      l ∈ placed kheapStart bs') : Held bs' (live.eraseIdx i) where
  nodup := by
    rw [← List.eraseIdx_map]
    exact h.nodup.eraseIdx i
  block l hl := by
    obtain ⟨j, hne, hj⟩ : ∃ j ≠ i, live[j]? = some l := by
      obtain ⟨j, hne, hj⟩ := List.mem_eraseIdx_iff_getElem?.mp hl
      exact ⟨j, hne, hj⟩
    obtain ⟨b, n, he, hmem, hn⟩ := h.block l (List.mem_of_getElem? hj)
    have hdiff := h.ne_of_ne hi hj hne
    exact ⟨b, n, he, hkeep _ hmem rfl (by dsimp only; omega), hn⟩

end Held

theorem Initial.inv (h : Initial s) : Inv s (fun _ => none) [] where
  repr :=
    { shows := h.shows
      exact := fun a => by
        have : 4096 ∣ kheapStart := by decide
        rw [h.brk]
        simp only [ne_eq, not_true_eq_false, false_iff]
        omega
      seg := trivial
      brk := h.brk
      limit := by rw [h.brk]; decide
      start := h.start
      last := h.last }
  quiet := ⟨by simp, by simp⟩
  held := h.live ▸ .nil
  calls := by simp [h.calls]

/-- What a byte of memory reads as. -/
def byteAt (s : Clients) (p : ℕ) : Option UInt8 := AddrSpace.bytes s.heap.pml4 s.heap.vm p

/-- The block list in memory, as the heap code reads it. -/
structure Listed (h : Heap) (bs : List Block) : Prop where
  seg : Seg (AddrSpace.bytes h.pml4 h.vm) 0 kheapStart bs 0
  brk : h.kheapBreak = kheapStart + total bs
  start : h.heapStart = first kheapStart 0 bs
  last : h.heapLast = lastAddr 0 kheapStart bs

theorem listed_of_repr {h : Heap} (hr : Repr h v bs) : Listed h bs where
  seg := hr.seg.congr_outside fun p hlo hhi => hr.shows.bytes_eq (hr.covers p hlo hhi)
  brk := hr.brk
  start := hr.start
  last := hr.last

namespace Inv

variable {size line function i offset p : ℕ} {b : UInt8}

theorem byteAt_eq (h : Inv s v bs) (hk : k ∈ s.live) (hlo : k.1 ≤ p) (hhi : p < k.1 + k.2) :
    s.byteAt p = v p := by
  obtain ⟨l, hl, -, he, hle⟩ := h.held.payload hk
  have hb := placed_bounds hl
  exact h.repr.shows.bytes_eq (h.repr.covers p (by omega) (by omega))

theorem kmalloc (h : Inv s v bs) (hok : Lawful s (.kmalloc size line function))
    (hs : s.step (.kmalloc size line function) = some s') :
    ∃ ptr v' bs', s'.live = s.live ++ [(ptr, size)] ∧ Inv s' v' bs' ∧ Apart true s.heap s'.heap ∧
      (∀ p, ptr ≤ p → p < ptr + size → v' p = some 0) ∧
      (∀ k ∈ s.live, ∀ p, k.1 ≤ p → p < k.1 + k.2 → v' p = v p) ∧ used bs' = used bs + 1 := by
  obtain ⟨⟨ptr, heap⟩, hm, hs⟩ := Option.bind_eq_some_iff.mp hs
  cases hs
  obtain ⟨hapart, v', bs', hserved⟩ :=
    (kmalloc_spec h.repr h.quiet (hok.1.trans (by decide)) hok.2).1 _ hm
  obtain ⟨a, rfl, halloc⟩ := hserved.allocated
  refine ⟨_, v', bs', rfl, ⟨hserved.repr, hserved.quiet, h.held.allocated halloc, fun c hc => ?_⟩,
    hapart, hserved.zero, fun k hk p hlo hhi => hserved.frame p ?_, hserved.used⟩
  · exact (hserved.calls c hc).elim (h.calls c) id
  · obtain ⟨l, hl, hused, he, hle⟩ := h.held.payload hk
    exact ⟨l, hl, hused, by omega, by omega⟩

theorem exists_kmalloc (h : Inv s v bs) (hok : Lawful s (.kmalloc size line function))
    (hfree : 4 * ((size + headerSize) / 4096 + 1) ≤ s.heap.vm.pageMap.freeFrames) :
    ∃ s', s.step (.kmalloc size line function) = some s' := by
  obtain ⟨r, hr⟩ := (kmalloc_spec h.repr h.quiet (hok.1.trans (by decide)) hok.2).2 hfree
  exact ⟨_, by rw [step, hr]; rfl⟩

theorem kfree (h : Inv s v bs) (hok : Steady s (.kfree i)) :
    ∃ s' v' bs', s.step (.kfree i) = some s' ∧ Inv s' v' bs' ∧ Apart false s.heap s'.heap ∧
      (∀ j ≠ i, ∀ k ∈ s.live[j]?, ∀ p, k.1 ≤ p → p < k.1 + k.2 → v' p = v p) ∧
      s.live.length = s'.live.length + 1 ∧ used bs = used bs' + 1 := by
  obtain ⟨hi, hoff⟩ := hok
  obtain ⟨k, hk⟩ : ∃ k, s.live[i]? = some k := ⟨_, List.getElem?_eq_getElem hi⟩
  obtain ⟨a, n, ha, hmem, -⟩ := h.held.block k (List.mem_of_getElem? hk)
  obtain ⟨heap, hf, hapart, v', bs', hfreed⟩ := kfree_spec h.repr h.quiet hmem fun hlast =>
    hoff k hk (by rw [hlast, ha])
  refine ⟨⟨heap, s.live.eraseIdx i⟩, v', bs', ?_, ⟨hfreed.repr, hfreed.quiet,
    h.held.freed hk ha hfreed.keeps, fun c hc => ?_⟩, hapart, fun j hne l hl p hlo hhi => ?_, ?_,
    hfreed.used⟩
  · have hf' : s.heap.kfree k.1 = some heap := ha ▸ hf
    simp [step, hk, hf']
  · exact (hfreed.calls c hc).elim (h.calls c) id
  · obtain ⟨b, m, he, hmem', hm⟩ := h.held.block l (List.mem_of_getElem? hl)
    have hdiff := h.held.ne_of_ne hk hl hne
    exact hfreed.frame _ hmem' rfl (by dsimp only; omega) p (by dsimp only; omega)
      (by dsimp only; omega)
  · rw [List.length_eraseIdx_of_lt hi]
    omega

theorem store (h : Inv s v bs) (hok : Lawful s (.store i offset b))
    (hs : s.step (.store i offset b) = some s') :
    (∃ v', Inv s' v' bs) ∧ Apart true s.heap s'.heap := by
  obtain ⟨k, hk, hs⟩ := Option.bind_eq_some_iff.mp hs
  obtain ⟨vm, hvm, hs⟩ := Option.bind_eq_some_iff.mp hs
  cases hs
  have hlt := hok k hk
  obtain ⟨l, hl, -, he, hle⟩ := h.held.payload (List.mem_of_getElem? hk)
  have hb := placed_bounds hl
  have hcov := h.repr.covers (k.1 + offset) (by omega) (by omega)
  obtain ⟨vm', hvm', -, hshows, hb'⟩ := h.repr.shows.storeByte hcov b
  rw [hvm] at hvm'
  cases hvm'
  have hoff := offHeaders_of_placed h.repr.seg hl (p := k.1 + offset) (by omega) (by omega)
  refine ⟨⟨_, ⟨hshows, ?_, h.repr.seg.congr fun m hm p hlo hhi => ?_, h.repr.brk, h.repr.limit,
    h.repr.start, h.repr.last⟩, h.quiet, h.held, h.calls⟩, rfl, hb' true⟩
  · intro p
    rw [← h.repr.exact p]
    rcases eq_or_ne p (k.1 + offset) with rfl | hne
    · simpa using hcov
    · rw [Function.update_of_ne hne]
  · have := hoff m hm
    exact Function.update_of_ne (by omega) _ _

/-- Every step of a run keeps the invariant. -/
theorem of_step (h : Inv s v bs) (hok : Steady s c) (hs : s.step c = some s') :
    (∃ v' bs', Inv s' v' bs') ∧ ∃ grow, Apart grow s.heap s'.heap := by
  cases c with
  | kmalloc size line function =>
    obtain ⟨-, v', bs', -, h', hapart, -⟩ := h.kmalloc hok hs
    exact ⟨⟨v', bs', h'⟩, true, hapart⟩
  | kfree i =>
    obtain ⟨s'', v', bs', hs'', h', hapart, -⟩ := h.kfree hok
    rw [hs] at hs''
    cases hs''
    exact ⟨⟨v', bs', h'⟩, false, hapart⟩
  | store i offset b =>
    obtain ⟨⟨v', h'⟩, hapart⟩ := h.store hok hs
    exact ⟨⟨v', bs, h'⟩, true, hapart⟩

theorem reachable {s₀ : Clients} (h₀ : Initial s₀) (h : Run.Reachable step Steady s₀ s) :
    ∃ v bs, Inv s v bs := by
  refine h.invariant (P := fun s => ∃ v bs, Inv s v bs) ⟨_, _, h₀.inv⟩ ?_
  rintro s c s' ⟨v, bs, hinv⟩ hok hs
  exact (hinv.of_step hok hs).1

end Inv

/-- A machine with 16 cleared frames, of which the second is the PML4 of the kernel. -/
def boot : Clients :=
  ⟨⟨⟨fun _ _ => 0, ⟨⟨16, 16, 15, 1, fun f => if f = 1 then 1 else 0⟩, by decide⟩, none⟩,
    1, kheapStart, 0, 0, []⟩, []⟩

theorem boot_initial : Initial boot where
  shows := by
    have hnone : ∀ v d, AddrSpace.frameAt boot.heap.vm 1 v (d + 1) = none := by
      intro v d
      induction d with
      | zero => exact if_neg (show ¬ GenericPagingTable.present 0 = true by decide)
      | succ d ih => rw [AddrSpace.frameAt, ih, Option.bind_none]
    have hzero : ∀ {v d f}, AddrSpace.frameAt boot.heap.vm 1 v d = some f → d = 0 ∧ f = 1 := by
      intro v d f hf
      cases d with
      | zero => exact ⟨rfl, (Option.some.inj hf).symm⟩
      | succ d => rw [hnone] at hf; cases hf
    refine ⟨⟨?_, ?_⟩, ?_⟩
    · intro v v' d d' f hv hv' _ _ hf hf'
      obtain ⟨rfl, -⟩ := hzero hf
      obtain ⟨rfl, -⟩ := hzero hf'
      refine ⟨rfl, ?_⟩
      simp only [mem_heapPages_iff, kheapStart, kheapEnd, prefixAt] at *
      omega
    · intro v d f _ _ hf
      obtain ⟨-, rfl⟩ := hzero hf
      exact ⟨by decide, by decide⟩
    · funext a
      have hf : AddrSpace.frameAt boot.heap.vm boot.heap.pml4 (a / 4096) 4 = none := hnone _ 3
      rw [view, AddrSpace.bytes, AddrSpace.pageMem, hf]
      exact ite_self _
  brk := rfl
  start := rfl
  last := rfl
  calls := rfl
  live := rfl

/-- Two blocks, of which the first is freed. -/
def twoCalls : List Call := [.kmalloc 100 1 0, .kmalloc 200 2 0, .store 1 5 7, .kfree 0]

/-- Two blocks of a page, of which the second is freed at the page boundary where the heap ends. -/
def boundaryCalls : List Call := [.kmalloc 4055 1 0, .store 0 0 7, .kmalloc 4055 2 0, .kfree 1]

/-- Steps from the empty heap that do not free a block ending on a page boundary keep the list of
blocks: it tiles the heap up to the break, no two neighbours are free and the last is used. -/
theorem listed_of_steady (s₀ s : Clients) (h₀ : Initial s₀) (h : Run.Reachable step Steady s₀ s) :
    ∃ bs, Listed s.heap bs ∧ Quiet bs := by
  obtain ⟨v, bs, hinv⟩ := Inv.reachable h₀ h
  exact ⟨bs, listed_of_repr hinv.repr, hinv.quiet⟩

set_option maxRecDepth 20000 in
theorem exists_twoCalls : ∃ s, Run.guardedRun step Steady boot twoCalls = some s ∧
    Steady s (.kfree 0) := by
  have hrun : (Run.guardedRun step Steady boot twoCalls).map
      (fun s => decide (Steady s (.kfree 0))) =
      some true := by decide_cbv
  obtain ⟨s, hs, hok⟩ := Option.map_eq_some_iff.mp hrun
  exact ⟨s, hs, of_decide_eq_true hok⟩

theorem listed_of_steady_twoCalls : ∃ s, Run.guardedRun step Steady boot twoCalls = some s ∧
    ∃ bs, Listed s.heap bs ∧ Quiet bs := by
  obtain ⟨s, hs, -⟩ := exists_twoCalls
  exact ⟨s, hs, listed_of_steady boot s boot_initial (Run.reachable_of_guardedRun hs)⟩

set_option maxRecDepth 20000 in
/-- The page after the heap has frame 0 in its empty entry, and `kbrk` frees this frame when the
second block goes. It holds the first block, which can then not be freed, and is handed out again
for the third, whose header overwrites that of the first. -/
theorem exists_boundaryCalls : ∃ s s', Run.guardedRun step Lawful boot boundaryCalls = some s ∧
    s.heap.calls.getLast? = some ⟨false, kheapStart / 4096 + 2, false⟩ ∧
    s.live = [(kheapStart + headerSize, 4055)] ∧ s.step (.kfree 0) = none ∧
    s.byteAt (kheapStart + headerSize) = some 7 ∧
    Lawful s (.kmalloc 4055 3 0) ∧ s.step (.kmalloc 4055 3 0) = some s' ∧
    s'.byteAt (kheapStart + headerSize) = some 0 ∧ s'.heap.kheapBreak = kheapStart + 8192 ∧
    s'.heap.get kheapStart .prev = some kheapStart := by
  have hrun : (Run.guardedRun step Lawful boot boundaryCalls).map (fun s =>
      decide (s.heap.calls.getLast? = some ⟨false, kheapStart / 4096 + 2, false⟩) &&
      decide (s.live = [(kheapStart + headerSize, 4055)]) && (s.step (.kfree 0)).isNone &&
      decide (s.byteAt (kheapStart + headerSize) = some 7) &&
      decide (Lawful s (.kmalloc 4055 3 0)) &&
      decide ((s.step (.kmalloc 4055 3 0)).map (fun s' => (s'.byteAt (kheapStart + headerSize),
          s'.heap.kheapBreak, s'.heap.get kheapStart .prev)) =
        some (some 0, kheapStart + 8192, some kheapStart))) = some true := by decide_cbv
  obtain ⟨s, hs, he⟩ := Option.map_eq_some_iff.mp hrun
  simp only [Bool.and_eq_true, decide_eq_true_eq, Option.isNone_iff_eq_none,
    Option.map_eq_some_iff, Prod.mk.injEq] at he
  obtain ⟨⟨⟨⟨⟨hcalls, hlive⟩, hnone⟩, hbyte⟩, hok⟩, s', hs', hbyte', hbrk, hprev⟩ := he
  exact ⟨s, s', hs, hcalls, hlive, hnone, hbyte, hok, hs', hbyte', hbrk, hprev⟩

theorem not_listed_of_lawful : ¬ ∀ s₀ s : Clients, Initial s₀ → Run.Reachable step Lawful s₀ s →
    ∃ bs, Listed s.heap bs ∧ Quiet bs := by
  intro h
  obtain ⟨s, s', hs, -, -, -, -, hok, hs', -, hbrk, hprev⟩ := exists_boundaryCalls
  obtain ⟨bs, hlisted, -⟩ := h boot s' boot_initial
    ((Run.reachable_of_guardedRun hs).step hok hs')
  cases bs with
  | nil => exact absurd (hbrk.symm.trans hlisted.brk) (by decide)
  | cons b bs => exact absurd (hprev.symm.trans hlisted.seg.1.prev) (by decide)

/-- The mapped pages of the heap region are those below the break, and every page call was made on
a page in the right state. -/
structure Mapped (h : Heap) : Prop where
  exact : ∀ page ∈ heapPages, h.isMapped page = true ↔ 4096 * page < h.kheapBreak
  calls : ∀ c ∈ h.calls, c.Proper

theorem mapped_of_steady (s₀ s : Clients) (h₀ : Initial s₀) (h : Run.Reachable step Steady s₀ s) :
    Mapped s.heap := by
  obtain ⟨v, bs, hinv⟩ := Inv.reachable h₀ h
  refine ⟨fun page hpage => ?_, hinv.calls⟩
  rw [isMapped_eq hinv.repr.shows hpage, Option.isSome_iff_ne_none, hinv.repr.exact,
    Nat.mul_div_cancel_left _ (by decide), Nat.mul_comm page]
  exact and_iff_right hpage.1

theorem mapped_of_steady_twoCalls : ∃ s, Run.guardedRun step Steady boot twoCalls = some s ∧
    Mapped s.heap := by
  obtain ⟨s, hs, -⟩ := exists_twoCalls
  exact ⟨s, hs, mapped_of_steady boot s boot_initial (Run.reachable_of_guardedRun hs)⟩

/-- `kbrk` unmaps the page after the heap, which is not mapped. -/
theorem not_mapped_of_lawful : ¬ ∀ s₀ s : Clients, Initial s₀ → Run.Reachable step Lawful s₀ s →
    Mapped s.heap := by
  intro h
  obtain ⟨s, -, hs, hcalls, -⟩ := exists_boundaryCalls
  have hproper := (h boot s boot_initial (Run.reachable_of_guardedRun hs)).calls _
    (List.mem_of_getLast? hcalls)
  cases hproper

/-- What the clients are promised about a call. -/
def Honours (s : Clients) : Call → Clients → Prop
  | .kmalloc size _ _, s' => ∃ ptr, s'.live = s.live ++ [(ptr, size)] ∧
      (∀ p ∈ Set.Ico ptr (ptr + size), s'.byteAt p = some 0) ∧
      kheapStart ≤ ptr ∧ ptr + size ≤ s'.heap.kheapBreak ∧
      (∃ bs, Listed s'.heap bs ∧ ∀ k ∈ placed kheapStart bs,
        Disjoint (Set.Ico k.1 (k.1 + headerSize)) (Set.Ico ptr (ptr + size))) ∧
      (∀ k ∈ s.live, Disjoint (Set.Ico k.1 (k.1 + k.2)) (Set.Ico ptr (ptr + size))) ∧
      ∀ k ∈ s.live, ∀ p ∈ Set.Ico k.1 (k.1 + k.2), s'.byteAt p = s.byteAt p
  | .kfree i, s' => ∀ j ≠ i, ∀ k ∈ s.live[j]?, ∀ p ∈ Set.Ico k.1 (k.1 + k.2),
      s'.byteAt p = s.byteAt p
  | .store _ _ _, _ => True

theorem Inv.honours (h : Inv s v bs) (hok : Steady s c) (hs : s.step c = some s') :
    Honours s c s' := by
  cases c with
  | kmalloc size line function =>
    obtain ⟨ptr, v', bs', hlive, h', -, hzero, hframe, -⟩ := h.kmalloc hok hs
    have hmem : (ptr, size) ∈ s'.live := by simp [hlive]
    obtain ⟨l, hl, -, he, hle⟩ := h'.held.payload hmem
    have hb := placed_bounds hl
    rw [← h'.repr.brk] at hb
    refine ⟨ptr, hlive, fun p hp => ?_, by dsimp only at he; omega, hle.trans hb.2,
      ⟨bs', listed_of_repr h'.repr, fun k hk => ?_⟩, fun k hk => ?_, fun k hk p hp => ?_⟩
    · rw [h'.byteAt_eq hmem hp.1 hp.2]
      exact hzero p hp.1 hp.2
    · rw [Set.disjoint_left]
      intro p hp hp'
      have := offHeaders_of_placed h'.repr.seg hl (he.trans_le hp'.1) (hp'.2.trans_le hle) k hk
      exact absurd hp (by simp only [Set.mem_Ico]; omega)
    · have hk' : k ∈ s'.live := by simp [hlive, hk]
      obtain ⟨m, hm, -, hem, hlem⟩ := h'.held.payload hk'
      have hne : k.1 ≠ ptr := by
        have hnodup := h'.held.nodup
        rw [hlive, List.map_append, List.nodup_append] at hnodup
        exact hnodup.2.2 k.1 (List.mem_map_of_mem hk) ptr (by simp)
      rw [Set.disjoint_left]
      intro p hp hp'
      simp only [Set.mem_Ico] at hp hp'
      rcases placed_disjoint hl hm with rfl | hlt | hlt <;> omega
    · have hk' : k ∈ s'.live := by simp [hlive, hk]
      rw [h'.byteAt_eq hk' hp.1 hp.2, h.byteAt_eq hk hp.1 hp.2]
      exact hframe k hk p hp.1 hp.2
  | kfree i =>
    obtain ⟨s'', v', bs', hs'', h', -, hframe, -⟩ := h.kfree hok
    rw [hs] at hs''
    cases hs''
    intro j hne k hk p hp
    have hk' : k ∈ s'.live := by
      obtain ⟨l, hl, hs⟩ := Option.bind_eq_some_iff.mp hs
      obtain ⟨heap, -, hs⟩ := Option.bind_eq_some_iff.mp hs
      cases hs
      exact List.mem_eraseIdx_iff_getElem?.mpr ⟨j, hne, hk⟩
    rw [h'.byteAt_eq hk' hp.1 hp.2, h.byteAt_eq (List.mem_of_getElem? hk) hp.1 hp.2]
    exact hframe j hne k hk p hp.1 hp.2
  | store i offset b => trivial

/-- In such runs the clients get what they are promised; `kfree` returns, and `kmalloc` too if
there are enough frames left. -/
theorem honours_of_steady (s₀ s : Clients) (h₀ : Initial s₀)
    (h : Run.Reachable step Steady s₀ s) :
    (∀ c s', Steady s c → s.step c = some s' → Honours s c s') ∧
    (∀ i, Steady s (.kfree i) → ∃ s', s.step (.kfree i) = some s') ∧
    ∀ size line function, Steady s (.kmalloc size line function) →
      4 * ((size + headerSize) / 4096 + 1) ≤ s.heap.vm.pageMap.freeFrames →
      ∃ s', s.step (.kmalloc size line function) = some s' := by
  obtain ⟨v, bs, hinv⟩ := Inv.reachable h₀ h
  refine ⟨fun c s' hok hs => hinv.honours hok hs, fun i hok => ?_, fun size line function hok hle =>
    hinv.exists_kmalloc hok hle⟩
  obtain ⟨s', -, -, hs', -⟩ := hinv.kfree hok
  exact ⟨s', hs'⟩

theorem honours_of_steady_twoCalls : ∃ s s', Run.guardedRun step Steady boot twoCalls = some s ∧
    s.step (.kfree 0) = some s' ∧ Honours s (.kfree 0) s' := by
  obtain ⟨s, hs, hok⟩ := exists_twoCalls
  obtain ⟨hhonours, hfree, -⟩ := honours_of_steady boot s boot_initial
    (Run.reachable_of_guardedRun hs)
  obtain ⟨s', hs'⟩ := hfree 0 hok
  exact ⟨s, s', hs, hs', hhonours _ _ hok hs'⟩

/-- The third block clears the payload of the first. -/
theorem not_honours_of_lawful : ¬ ∀ s₀ s : Clients, Initial s₀ → Run.Reachable step Lawful s₀ s →
    ∀ c s', Lawful s c → s.step c = some s' → Honours s c s' := by
  intro h
  obtain ⟨s, s', hs, -, hlive, -, hbyte, hok, hs', hbyte', -⟩ := exists_boundaryCalls
  obtain ⟨ptr, -, -, -, -, -, -, hkeep⟩ :=
    h boot s boot_initial (Run.reachable_of_guardedRun hs) _ s' hok hs'
  have hmem : (kheapStart + headerSize, 4055) ∈ s.live := by simp [hlive]
  have := hkeep _ hmem (kheapStart + headerSize) ⟨le_rfl, by simp⟩
  rw [hbyte, hbyte'] at this
  cases this

end Clients

end Heap

end Koerix
