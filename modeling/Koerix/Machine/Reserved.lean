import Koerix.AddrSpace.Outside
import Koerix.Heap.Break
import Koerix.Machine.Basic

/-! # Reserved frames

At boot the counter of every frame that is not usable RAM is set to 0xff, which
is an ordinary value for `free`. A break that shrinks from a page boundary
unmaps a page that is not mapped, and so gives back whatever frame the empty
entry names; the destructor gives back the framebuffer. Enough of either makes a
reserved frame available. Without them the kernel keeps its hold on these frames.
-/

namespace Koerix

open GenericPagingTable AddrSpace Heap

namespace Machine

/-- The counter that `create_page_bitmap` gives to frames that are not usable RAM. -/
def Reserved (vm : Vm) (f : ℕ) : Prop := f < vm.pageMap.totalPages ∧ vm.pageMap.pagemap f = 0xff

/-- The machine after boot: no process and no heap page yet, the tables of the heap region are
allocated frames, and the framebuffer is not usable RAM. -/
structure Booted (fb : Framebuffer) (m : Machine) : Prop where
  live : m.live = []
  kheapBreak : m.heap.kheapBreak = kheapStart
  tree : Tree heapPages m.heap.pml4 m.heap.vm
  empty : ∀ page ∈ heapPages, frameAt m.heap.vm m.heap.pml4 page 4 = none
  tables : ∀ page ∈ heapPages, ∀ d ≤ 4, ∀ f, frameAt m.heap.vm m.heap.pml4 page d = some f →
    m.heap.vm.pageMap.pagemap f ≠ 0xff
  framebuffer : ∀ i < fb.pageCount, fb.startPage + i < 2 ^ 28 ∧
    (fb.startPage + i < m.heap.vm.pageMap.totalPages → Reserved m.heap.vm (fb.startPage + i))

/-- The calls of the kernel: the break stays in the heap region, there are fewer than 256
processes, and user pages are fresh frames, or the framebuffer. -/
def Ordinary (m : Machine) : Call → Prop
  | .kbrk increment => increment < 2 ^ 64 ∧
      kheapStart ≤ (m.heap.kheapBreak + increment) % 2 ^ 64 ∧
      (m.heap.kheapBreak + increment) % 2 ^ 64 ≤ kheapEnd + 1
  | .fbInfo .. => True
  | .space (.mapDevice ..) => False
  | .space (.map _ virt _ flags) => virt < userPages ∧ flags.shared = false
  | .space (.triggerCow _ virt) => virt < userPages
  | .space .create | .space (.clone _) => m.live.length + 1 < 256
  | .space (.destroy _) => True

/-- The break shrinks from inside a page only, and only severable address spaces are destroyed. -/
def Tidy (m : Machine) : Call → Prop
  | .kbrk increment => Ordinary m (.kbrk increment) ∧
      ((m.heap.kheapBreak + increment) % 2 ^ 64 < m.heap.kheapBreak → m.heap.kheapBreak % 4096 ≠ 0)
  | .space (.destroy a) => ∀ r ∈ m.live[a]?, Severable m.heap.vm 3 r
  | c => Ordinary m c

instance (m : Machine) : ∀ c, Decidable (Ordinary m c)
  | .kbrk _ => inferInstanceAs (Decidable (_ ∧ _ ∧ _))
  | .fbInfo .. => isTrue trivial
  | .space (.mapDevice ..) => isFalse id
  | .space (.map ..) => inferInstanceAs (Decidable (_ ∧ _))
  | .space (.triggerCow ..) => inferInstanceAs (Decidable (_ < _))
  | .space .create | .space (.clone _) => inferInstanceAs (Decidable (_ < _))
  | .space (.destroy _) => isTrue trivial

instance (m : Machine) : ∀ c, Decidable (Tidy m c)
  | .kbrk increment => inferInstanceAs (Decidable (Ordinary m (.kbrk increment) ∧ _))
  | .space (.destroy a) => inferInstanceAs (Decidable (∀ r ∈ m.live[a]?, Severable m.heap.vm 3 r))
  | .fbInfo a type => inferInstanceAs (Decidable (Ordinary m (.fbInfo a type)))
  | .space (.mapDevice a virt phys flags) =>
    inferInstanceAs (Decidable (Ordinary m (.space (.mapDevice a virt phys flags))))
  | .space (.map a virt content flags) =>
    inferInstanceAs (Decidable (Ordinary m (.space (.map a virt content flags))))
  | .space (.triggerCow a virt) =>
    inferInstanceAs (Decidable (Ordinary m (.space (.triggerCow a virt))))
  | .space .create => inferInstanceAs (Decidable (Ordinary m (.space .create)))
  | .space (.clone a) => inferInstanceAs (Decidable (Ordinary m (.space (.clone a))))

variable {fb : Framebuffer} {vm₀ vm vm' : Vm} {m m' : Machine} {live live' : List ℕ}
  {base base' : ℕ → ℕ} {pos pos' : Positions} {pml4 page q n f r : ℕ} {h h' : Heap}

/-- The kernel holds the reserved frames and the tables of the heap region, which are not among
the reserved ones, nor are they mapped as shared pages. -/
structure Sealed (vm₀ : Vm) (pml4 : ℕ) (vm : Vm) (live : List ℕ) (base : ℕ → ℕ)
    (pos : Positions) : Prop where
  settled : Settled base vm live pos
  total : vm.pageMap.totalPages = vm₀.pageMap.totalPages
  keeps : ∀ f, Reserved vm₀ f → base f ≠ 0
  tree : Tree heapPages pml4 vm
  apart : ∀ page ∈ heapPages, ∀ d ≤ 4, ∀ f, frameAt vm pml4 page d = some f →
    base f ≠ 0 ∧ ¬ MapsShared vm live f ∧ ¬ Reserved vm₀ f

namespace Sealed

/-- An operation that leaves the frames of the kernel alone. -/
theorem of_kept (h : Sealed vm₀ pml4 vm live base pos) (hset : Settled base' vm' live' pos')
    (htot : vm'.pageMap.totalPages = vm.pageMap.totalPages)
    (hheld : ∀ g, base g ≠ 0 → base' g ≠ 0)
    (hmem : ∀ g < vm.pageMap.totalPages, base g ≠ 0 → vm'.mem g = vm.mem g)
    (hnames : ∀ g, base g ≠ 0 → ¬ Reserved vm₀ g → g < vm.pageMap.totalPages →
      MapsShared vm' live' g → MapsShared vm live g) :
    Sealed vm₀ pml4 vm' live' base' pos' ∧ Heap.view pml4 vm' = Heap.view pml4 vm := by
  have hkept : ∀ page ∈ heapPages, ∀ d ≤ 4, ∀ f, frameAt vm pml4 page d = some f →
      vm'.mem f = vm.mem f :=
    fun page hp d hd f hf => hmem f (h.tree.used hp hd hf).1 (h.apart page hp d hd f hf).1
  have hframe : ∀ page ∈ heapPages, ∀ d ≤ 4, frameAt vm' pml4 page d = frameAt vm pml4 page d :=
    fun page hp d hd => frameAt_congr_mem fun k hk t ht => hkept page hp k (by omega) t ht
  have hused : ∀ page ∈ heapPages, ∀ d ≤ 4, ∀ f, frameAt vm' pml4 page d = some f →
      f < vm'.pageMap.totalPages ∧ vm'.pageMap.pagemap f ≠ 0 := by
    intro page hp d hd f hf
    rw [hframe page hp d hd] at hf
    have hlt : f < vm'.pageMap.totalPages := htot ▸ (h.tree.used hp hd hf).1
    exact ⟨hlt, hset.counter_ne_zero_of_held hlt (hheld f (h.apart page hp d hd f hf).1)⟩
  have htree : Tree heapPages pml4 vm' := by
    refine h.tree.mono (fun page hp d hd f hf => ?_) hused
    rwa [hframe page hp d hd] at hf
  refine ⟨⟨hset, htot.trans h.total, fun f hf => hheld f (h.keeps f hf), htree, ?_⟩, ?_⟩
  · intro page hp d hd f hf
    rw [hframe page hp d hd] at hf
    obtain ⟨hb, hns, hres⟩ := h.apart page hp d hd f hf
    exact ⟨hheld f hb, fun hn => hns (hnames f hb hres (h.tree.used hp hd hf).1 hn), hres⟩
  · funext a
    unfold Heap.view bytes pageMem
    split_ifs with ha
    · have hp := page_mem_heapPages ha.1 ha.2
      rw [hframe _ hp 4 le_rfl]
      refine congrArg _ (Option.map_congr fun f hf => hkept _ hp 4 le_rfl f hf)
    · rfl

theorem of_contained (h : Sealed vm₀ pml4 vm live base pos) (hset : Settled base' vm' live' pos')
    (hcon : Contained base base' vm vm' live live') :
    Sealed vm₀ pml4 vm' live' base' pos' ∧ Heap.view pml4 vm' = Heap.view pml4 vm :=
  h.of_kept hset hcon.total hcon.held hcon.mem fun g hg _ _ => hcon.names g hg

theorem mapPage (h : Sealed vm₀ pml4 vm live base pos) (hr : r ∈ live) {i : ℕ}
    (hi : i < fb.pageCount) (hfit : fb.startPage + i < 2 ^ 28)
    (hfb : fb.startPage + i < vm₀.pageMap.totalPages → Reserved vm₀ (fb.startPage + i))
    (hm : fb.mapPage r vm i = some vm') :
    ∃ pos', Sealed vm₀ pml4 vm' live base pos' ∧ Heap.view pml4 vm' = Heap.view pml4 vm := by
  have hv := Framebuffer.page_lt_userPages hi
  have hpay : Payload vm pos (fb.startPage + i) Framebuffer.flags base base := by
    rcases Nat.lt_or_ge (fb.startPage + i) vm.pageMap.totalPages with hlt | hge
    · exact .device rfl hlt (Nat.pos_of_ne_zero (h.keeps _ (hfb (h.total ▸ hlt))))
    · exact .foreign hge hfit
  obtain ⟨pos', k, u, hset, -, hg⟩ := h.settled.map hpay hr hv hm
  refine ⟨pos', h.of_kept hset hg.total (fun _ => id)
    (fun g hlt hb => h.settled.map_mem hr hv hm hlt hb) fun g _ hres hlt hn => ?_⟩
  rcases h.settled.map_mapsShared hpay hr hv hm hn with hold | ⟨-, rfl⟩
  · exact hold
  · rw [Nat.mod_eq_of_lt hfit] at hres hlt
    exact absurd (hfb (h.total ▸ hlt)) hres

theorem fbMap (h : Sealed vm₀ pml4 vm live base pos) (hr : r ∈ live)
    (hfb : ∀ i < fb.pageCount, fb.startPage + i < 2 ^ 28 ∧
      (fb.startPage + i < vm₀.pageMap.totalPages → Reserved vm₀ (fb.startPage + i)))
    (hm : (List.range fb.pageCount).foldlM (fb.mapPage r) vm = some vm') :
    ∃ pos', Sealed vm₀ pml4 vm' live base pos' ∧ Heap.view pml4 vm' = Heap.view pml4 vm := by
  refine Run.foldlM_invariant hm (P := fun u => ∃ pos', Sealed vm₀ pml4 u live base pos' ∧
    Heap.view pml4 u = Heap.view pml4 vm) ⟨pos, h, rfl⟩ ?_
  rintro u i hi u' ⟨pos₁, h₁, hview⟩ hu
  have hi := List.mem_range.mp hi
  obtain ⟨pos', h', hview'⟩ := h₁.mapPage hr hi (hfb i hi).1 (hfb i hi).2 hu
  exact ⟨pos', h', hview'.trans hview⟩

/-- A call of the process code. -/
theorem space {s' : Spaces} {c : Spaces.Call}
    (h : Sealed vm₀ m.heap.pml4 m.heap.vm m.live base pos) (hok : Tidy m (.space c))
    (hs : m.spaces.step c = some s') :
    ∃ base' pos', Sealed vm₀ m.heap.pml4 s'.vm s'.live base' pos' ∧
      Heap.view m.heap.pml4 s'.vm = Heap.view m.heap.pml4 m.heap.vm := by
  have hset : Settled base m.spaces.vm m.spaces.live pos := h.settled
  cases c with
  | create =>
    obtain ⟨r, vm, hc, rfl⟩ := Spaces.step_create hs
    exact ⟨base, _, h.of_contained (hset.create hok hc).2 (hset.create_contained hc)⟩
  | map a virt content flags =>
    obtain ⟨r, phys, vm₁, vm, hr, ha, hm, rfl⟩ := Spaces.step_map hs
    obtain ⟨pos', hset', hcon⟩ :=
      hset.mapFresh_contained (List.mem_of_getElem? hr) hok.1 hok.2 ha hm
    exact ⟨base, pos', h.of_contained hset' hcon⟩
  | mapDevice => exact hok.elim
  | clone a =>
    obtain ⟨r, n, vm, hr, hc, rfl⟩ := Spaces.step_clone hs
    have hr := List.mem_of_getElem? hr
    obtain ⟨-, hset', -, -⟩ := hset.clone hr hok hc
    exact ⟨base, _, h.of_contained hset' (hset.clone_contained hr hok hc)⟩
  | triggerCow a virt =>
    obtain ⟨r, b, vm, hr, hc, rfl⟩ := Spaces.step_triggerCow hs
    obtain ⟨base', pos', hset', hcon⟩ :=
      hset.triggerCow_contained (List.mem_of_getElem? hr) hok hc
    exact ⟨base', pos', h.of_contained hset' hcon⟩
  | destroy a =>
    obtain ⟨r, vm, ha, hd, rfl⟩ := Spaces.step_destroy hs
    obtain ⟨hlt, hr⟩ := List.getElem?_eq_some_iff.mp ha
    obtain ⟨pos', hset', hcon⟩ := hset.destroy_contained (List.mem_of_getElem? ha) (hok r ha) hd
    have hlive : m.spaces.live.erase r = m.spaces.live.eraseIdx a := by
      rw [← hr]
      exact hset.nodup.erase_getElem a hlt
    rw [hlive] at hset' hcon
    exact ⟨base, pos', h.of_contained hset' hcon⟩

theorem held_of_tree (hset : Settled base vm live pos) (htree : Tree heapPages pml4 vm)
    (hp : page ∈ heapPages) {d : ℕ} (hd : d ≤ 4) (hf : frameAt vm pml4 page d = some f)
    (hpos : pos f = none) : base f ≠ 0 := by
  obtain ⟨hlt, hne⟩ := htree.used hp hd hf
  intro hb
  apply hne
  rw [hset.refs hlt, hset.count_of_pos_none hlt hpos, hb]
  rfl

theorem free (h : Sealed vm₀ pml4 vm live base pos) (hlt : f < vm.pageMap.totalPages)
    (hz : vm.pageMap.pagemap f = 0) :
    pos f = none ∧ ¬ MapsShared vm live f ∧ ¬ Reserved vm₀ f := by
  obtain ⟨hpos, hb⟩ := h.settled.pos_none_of_free hlt hz
  refine ⟨hpos, fun hn => ?_, fun hres => h.keeps f hres hb⟩
  obtain ⟨t, i, q, hs, hp, hsh, rfl⟩ := h.settled.mapsShared_iff.mp hn
  have hdev := ((h.settled.entries hs hp).device hsh hlt).2
  rw [← h.settled.counter_eq hlt, hz] at hdev
  cases hdev

/-- An operation of the kernel on its own tables: the frames on the tree of the heap are old
ones, or they were free. -/
theorem of_aside (h : Sealed vm₀ pml4 vm live base pos) (ha : Aside base' vm vm' live pos)
    (hkeep : ∀ f, Reserved vm₀ f → base' f ≠ 0) (htree : Tree heapPages pml4 vm')
    (hframes : ∀ page ∈ heapPages, ∀ d ≤ 4, ∀ f, frameAt vm' pml4 page d = some f →
      frameAt vm pml4 page d = some f ∨ vm.pageMap.pagemap f = 0) :
    Sealed vm₀ pml4 vm' live base' pos := by
  refine ⟨ha.settled, ha.total.trans h.total, hkeep, htree, fun page hp d hd f hf => ?_⟩
  obtain ⟨hpos, hns, hres⟩ : pos f = none ∧ ¬ MapsShared vm live f ∧ ¬ Reserved vm₀ f := by
    rcases hframes page hp d hd f hf with hold | hz
    · obtain ⟨hb, hns, hres⟩ := h.apart page hp d hd f hold
      exact ⟨h.settled.pos_none_of_base hb, hns, hres⟩
    · exact h.free (ha.total ▸ (htree.used hp hd hf).1) hz
  exact ⟨held_of_tree ha.settled htree hp hd hf hpos,
    fun hn => hns ((Aside.mapsShared_iff h.settled ha).mp hn), hres⟩

/-- A page more for the heap. -/
theorem mapHeapPage (hse : Sealed vm₀ h.pml4 h.vm live base pos) (hp : page ∈ heapPages)
    (hm : h.mapPage page = some h') :
    h'.pml4 = h.pml4 ∧ ∃ base', Sealed vm₀ h.pml4 h'.vm live base' pos := by
  simp only [Heap.mapPage, Option.bind_eq_bind, Option.bind_eq_some_iff, Prod.exists,
    Option.pure_def, Option.some.injEq] at hm
  obtain ⟨phys, vm₁, ha, vm₂, hmap, rfl⟩ := hm
  refine ⟨rfl, ?_⟩
  change ∃ base', Sealed vm₀ h.pml4 vm₂ live base' pos
  obtain ⟨hmem, -, hlt, hz, htot, hpm⟩ := Vm.alloc_eq_some ha
  obtain ⟨-, hb, -, hset₁⟩ := hse.settled.alloc ha
  have hsame : ∀ v j, frameAt vm₁ h.pml4 v j = frameAt h.vm h.pml4 v j :=
    fun v j => frameAt_congr_mem fun k _ t _ => congrFun hmem t
  have hun : frameAt h.vm h.pml4 page 4 = none := by
    obtain ⟨k, u, -, hk, hu, hfree, -⟩ := mapFrom_descend (d := 0) rfl rfl hmap
    rw [hsame] at hu
    rw [Vm.entry_congr (congrFun hmem u)] at hfree
    refine frameAt_none_of_le (d := k + 1) ?_ (by omega)
    rw [frameAt, hu, Option.bind_some]
    simp [hfree]
  obtain ⟨hrest, -⟩ := (hse.tree.map heapFlags hp hun).1 phys vm₁ vm₂ ha hmap
  obtain ⟨hrest₁, hspare, -⟩ := hse.tree.alloc (v := page) ha (vm₁.mem phys)
  have hid : vm₁.setFrame phys (vm₁.mem phys) = vm₁ := by simp [Vm.setFrame]
  rw [hid] at hrest₁ hspare
  have hpath : PathHeld (Function.update base phys 1) vm₁ page 3 h.pml4 := by
    refine pathHeld_of_frameAt (d := 0) rfl rfl fun j hj f hf => ?_
    rw [hsame] at hf
    have hbf := (hse.apart page hp j (by omega) f hf).1
    rwa [Function.update_of_ne (by rintro rfl; exact hbf hb)]
  obtain ⟨base', haside, hkeep⟩ := hset₁.mapFrom_aside hpath hmap
  have haside₁ : Aside (Function.update base phys 1) h.vm vm₁ live pos :=
    ⟨hset₁, htot, fun u _ => congrFun hmem u⟩
  refine ⟨base', hse.of_aside (haside₁.trans haside) (fun f hf => hkeep f ?_) hrest.tree ?_⟩
  · have hbf := hse.keeps f hf
    rwa [Function.update_of_ne (by rintro rfl; exact hbf hb)]
  · intro page' hp' d hd f hf
    rcases hrest₁.tree.frameAt_of_mapFrom hp hp' (d := 0) rfl hd rfl ((hsame page 4).trans hun)
      hspare hmap hf with hold | hfree | rfl
    · exact Or.inl ((hsame page' d).symm.trans hold)
    · right
      rw [hpm] at hfree
      rcases eq_or_ne f phys with rfl | hne
      · simp at hfree
      · rwa [Function.update_of_ne hne] at hfree
    · exact Or.inr hz

theorem unmapHeapPage (hse : Sealed vm₀ h.pml4 h.vm live base pos) (hp : page ∈ heapPages)
    (hf : frameAt h.vm h.pml4 page 4 = some f) (hm : h.unmapPage page = some h') :
    h'.pml4 = h.pml4 ∧ (∃ base', Sealed vm₀ h.pml4 h'.vm live base' pos) ∧
      ∀ page' ∈ heapPages, page' ≠ page → frameAt h.vm h.pml4 page' 4 ≠ none →
        frameAt h'.vm h.pml4 page' 4 ≠ none := by
  simp only [Heap.unmapPage, Option.bind_eq_bind, Option.bind_eq_some_iff, Option.pure_def,
    Option.some.injEq] at hm
  obtain ⟨vm₁, hu, rfl⟩ := hm
  change h.pml4 = h.pml4 ∧ (∃ base', Sealed vm₀ h.pml4 vm₁ live base' pos) ∧
      ∀ page' ∈ heapPages, page' ≠ page → frameAt h.vm h.pml4 page' 4 ≠ none →
        frameAt vm₁ h.pml4 page' 4 ≠ none
  obtain ⟨vm₂, hu₂, hrest, -⟩ := hse.tree.unmap hp hf
  obtain rfl := Option.some.inj (hu.symm.trans hu₂)
  obtain ⟨base', haside, hsame⟩ := hse.settled.unmap_aside hse.tree hp hf (fun j hj g hg =>
    ⟨(hse.apart page hp j hj g hg).1, (hse.apart page hp j hj g hg).2.1⟩) hu
  refine ⟨rfl, ⟨base', hse.of_aside haside (fun g hg => ?_) hrest.tree
    fun page' _ d _ g hg => Or.inl (frameAt_of_unmap hu hg)⟩, fun page' hp' hne hmap hnone => ?_⟩
  · rw [hsame g fun j _ hj hgj => (hse.apart page hp j hj g hgj).2.2 hg]
    exact hse.keeps g hg
  · have hpage := hrest.page page' hp' hne
    rw [pageMem, pageMem, hnone] at hpage
    exact hmap (Option.map_eq_none_iff.mp hpage.symm)

theorem mapHeapPages (hse : Sealed vm₀ h.pml4 h.vm live base pos)
    (hp : ∀ r, q ≤ r → r < q + n → r ∈ heapPages)
    (hm : (List.range' q n).foldlM Heap.mapPage h = some h') :
    ∃ base', Sealed vm₀ h.pml4 h'.vm live base' pos := by
  suffices hall : h'.pml4 = h.pml4 ∧ ∃ base', Sealed vm₀ h.pml4 h'.vm live base' pos from hall.2
  refine Run.foldlM_invariant hm (P := fun h' => h'.pml4 = h.pml4 ∧
    ∃ base', Sealed vm₀ h.pml4 h'.vm live base' pos) ⟨rfl, base, hse⟩ ?_
  rintro h₁ r hr h₂ ⟨hpml4, base₁, hse₁⟩ hm₁
  have hr := List.mem_range'_1.mp hr
  rw [← hpml4] at hse₁
  obtain ⟨hpml4', base', hse'⟩ := hse₁.mapHeapPage (hp r hr.1 hr.2) hm₁
  rw [hpml4] at hse' hpml4'
  exact ⟨hpml4', base', hse'⟩

theorem unmapHeapPages (hse : Sealed vm₀ h.pml4 h.vm live base pos)
    (hp : ∀ r, q ≤ r → r < q + n → r ∈ heapPages ∧ frameAt h.vm h.pml4 r 4 ≠ none)
    (hm : (List.range' q n).foldlM Heap.unmapPage h = some h') :
    ∃ base', Sealed vm₀ h.pml4 h'.vm live base' pos := by
  induction n generalizing q h base with
  | zero =>
    obtain rfl : h = h' := by simpa using hm
    exact ⟨base, hse⟩
  | succ n ih =>
    rw [List.range'_succ, List.foldlM_cons] at hm
    obtain ⟨h₁, hh₁, hm⟩ := Option.bind_eq_some_iff.mp hm
    obtain ⟨hq, hmapped⟩ := hp q le_rfl (by omega)
    obtain ⟨f, hf⟩ := Option.ne_none_iff_exists'.mp hmapped
    obtain ⟨hpml4, ⟨base₁, hse₁⟩, hother⟩ := hse.unmapHeapPage hq hf hh₁
    rw [← hpml4] at hse₁ hother ⊢
    refine ih hse₁ (fun r hlo hhi => ?_) hm
    obtain ⟨hr, hmr⟩ := hp r (by omega) (by omega)
    rw [← hpml4] at hmr
    exact ⟨hr, hother r hr (by omega) hmr⟩

end Sealed

/-- What tidy calls keep: the hold of the kernel on its frames, and the heap pages up to the
break. -/
structure Inv (vm₀ : Vm) (m : Machine) (base : ℕ → ℕ) (pos : Positions) : Prop where
  sealed : Sealed vm₀ m.heap.pml4 m.heap.vm m.live base pos
  exact : Exact (Heap.view m.heap.pml4 m.heap.vm) m.heap.kheapBreak
  lo : kheapStart ≤ m.heap.kheapBreak
  hi : m.heap.kheapBreak ≤ kheapEnd + 1

namespace Inv

theorem withSpaces {s : Spaces} (hinv : Inv vm₀ m base pos)
    (h : Sealed vm₀ m.heap.pml4 s.vm s.live base' pos' ∧
      Heap.view m.heap.pml4 s.vm = Heap.view m.heap.pml4 m.heap.vm) :
    Inv vm₀ (m.withSpaces s) base' pos' :=
  ⟨h.1, h.2.symm ▸ hinv.exact, hinv.lo, hinv.hi⟩

theorem grow {inc o : ℕ} (hinv : Inv vm₀ m base pos) (hinc : 0 < inc)
    (hhi : m.heap.kheapBreak + inc ≤ kheapEnd + 1) (hk : m.heap.kbrk inc = some (o, h)) :
    ∃ base', Inv vm₀ { m with heap := h } base' pos := by
  obtain ⟨q, n, hkbrk, -, hrange⟩ := kbrk_eq_map hinv.lo hinc hhi
  obtain ⟨hsound, -⟩ := kbrk_grow ⟨hinv.sealed.tree, rfl⟩ hinv.exact hinv.lo hinc hhi
  obtain ⟨rfl, ⟨calls, hcalled, -⟩, -, v', hs, hexact, -⟩ := hsound o h hk
  have hlo := hinv.lo
  have hpages : ∀ r, q ≤ r → r < q + n → r ∈ heapPages := by
    intro r hr hr'
    have := (hrange r).mp ⟨hr, hr'⟩
    rw [mem_heapPages_iff]
    simp only [kheapStart, kheapEnd] at *
    omega
  rw [hkbrk, Option.map_eq_some_iff] at hk
  obtain ⟨h₁, hloop, heq⟩ := hk
  cases heq
  obtain ⟨base', hse⟩ := Sealed.mapHeapPages
    (h := { m.heap with kheapBreak := m.heap.kheapBreak + inc }) hinv.sealed hpages hloop
  have hpml4 : h.pml4 = m.heap.pml4 := by rw [hcalled]
  have hbrk : h.kheapBreak = m.heap.kheapBreak + inc := by rw [hcalled]
  refine ⟨base', hpml4 ▸ hse, ?_, ?_, ?_⟩
  · change Exact (Heap.view h.pml4 h.vm) h.kheapBreak
    rwa [hpml4, hbrk, hs.view_eq]
  · change kheapStart ≤ h.kheapBreak
    omega
  · change h.kheapBreak ≤ kheapEnd + 1
    omega

theorem shrink {dec o : ℕ} (hinv : Inv vm₀ m base pos) (hdec : 0 < dec)
    (hlo : kheapStart + dec ≤ m.heap.kheapBreak) (hoff : m.heap.kheapBreak % 4096 ≠ 0)
    (hk : m.heap.kbrk ((2 ^ 64 - dec) % 2 ^ 64) = some (o, h)) :
    ∃ base', Inv vm₀ { m with heap := h } base' pos := by
  obtain ⟨q, n, hkbrk, hrange⟩ := kbrk_eq_unmap hinv.hi hdec hlo
  have hshows : Shows m.heap.pml4 m.heap.vm (Heap.view m.heap.pml4 m.heap.vm) :=
    ⟨hinv.sealed.tree, rfl⟩
  obtain ⟨h₁, v', hk₁, ⟨calls, hcalled, -⟩, -, hs, hexact, -⟩ :=
    kbrk_shrink hshows hinv.exact hinv.hi hoff hdec hlo
  have hpages : ∀ r, q ≤ r → r < q + n →
      r ∈ heapPages ∧ frameAt m.heap.vm m.heap.pml4 r 4 ≠ none := by
    intro r hr hr'
    have := (hrange r).mp ⟨hr, hr'⟩
    have hhi := hinv.hi
    have hmem : r ∈ heapPages := by
      rw [mem_heapPages_iff]
      simp only [kheapStart, kheapEnd] at *
      omega
    refine ⟨hmem, fun hnone => ?_⟩
    have hun := (hshows.frame_none_iff hmem).mp hnone
    refine (hinv.exact (4096 * r)).mpr ⟨hmem.1, ?_⟩ hun
    omega
  rw [hk] at hk₁
  cases hk₁
  rw [hkbrk, Option.map_eq_some_iff] at hk
  obtain ⟨h₁, hloop, heq⟩ := hk
  cases heq
  obtain ⟨base', hse⟩ := Sealed.unmapHeapPages
    (h := { m.heap with kheapBreak := m.heap.kheapBreak - dec }) hinv.sealed hpages hloop
  have hpml4 : h.pml4 = m.heap.pml4 := by rw [hcalled]
  have hbrk : h.kheapBreak = m.heap.kheapBreak - dec := by rw [hcalled]
  have hhi := hinv.hi
  refine ⟨base', hpml4 ▸ hse, ?_, ?_, ?_⟩
  · change Exact (Heap.view h.pml4 h.vm) h.kheapBreak
    rwa [hpml4, hbrk, hs.view_eq]
  · change kheapStart ≤ h.kheapBreak
    omega
  · change h.kheapBreak ≤ kheapEnd + 1
    omega

theorem kbrk {inc o : ℕ} (hinv : Inv vm₀ m base pos) (hok : Tidy m (.kbrk inc))
    (hk : m.heap.kbrk inc = some (o, h)) : ∃ base', Inv vm₀ { m with heap := h } base' pos := by
  obtain ⟨⟨hlt, hlo, hhi⟩, hoff⟩ := hok
  have hlo' := hinv.lo
  have hhi' := hinv.hi
  rcases lt_trichotomy ((m.heap.kheapBreak + inc) % 2 ^ 64) m.heap.kheapBreak with hc | hc | hc
  · have hinc : inc =
        (2 ^ 64 - (m.heap.kheapBreak - (m.heap.kheapBreak + inc) % 2 ^ 64)) % 2 ^ 64 := by
      simp only [kheapStart, kheapEnd] at *
      omega
    rw [hinc] at hk
    exact hinv.shrink (by omega) (by omega) (hoff hc) hk
  · obtain rfl : inc = 0 := by
      simp only [kheapStart, kheapEnd] at *
      omega
    rw [kbrk_zero hlo' hhi'] at hk
    cases hk
    exact ⟨base, hinv⟩
  · have hsum : m.heap.kheapBreak + inc < 2 ^ 64 := by
      simp only [kheapStart, kheapEnd] at *
      omega
    rw [Nat.mod_eq_of_lt hsum] at hc hhi
    exact hinv.grow (by omega) hhi hk

theorem step {c : Call}
    (hfb : ∀ i < fb.pageCount, fb.startPage + i < 2 ^ 28 ∧
      (fb.startPage + i < vm₀.pageMap.totalPages → Reserved vm₀ (fb.startPage + i)))
    (hinv : Inv vm₀ m base pos) (hok : Tidy m c) (hs : m.step fb c = some m') :
    ∃ base' pos', Inv vm₀ m' base' pos' := by
  cases c with
  | kbrk inc =>
    obtain ⟨o, heap, hk, rfl⟩ := step_kbrk hs
    obtain ⟨base', hinv'⟩ := hinv.kbrk hok hk
    exact ⟨base', pos, hinv'⟩
  | fbInfo a type =>
    obtain ⟨r, x, vm, hr, hinfo, rfl⟩ := step_fbInfo hs
    rcases Framebuffer.info_eq_some hinfo with rfl | ⟨-, hmap⟩
    · exact ⟨base, pos, hinv.withSpaces ⟨hinv.sealed, rfl⟩⟩
    · obtain ⟨pos', hse⟩ := hinv.sealed.fbMap (List.mem_of_getElem? hr) hfb hmap
      exact ⟨base, pos', hinv.withSpaces hse⟩
  | space c =>
    obtain ⟨s, hstep, rfl⟩ := step_space hs
    obtain ⟨base', pos', hse⟩ := hinv.sealed.space hok hstep
    exact ⟨base', pos', hinv.withSpaces hse⟩

theorem of_booted (h : Booted fb m) :
    Inv m.heap.vm m (Spaces.reserved m.heap.vm) fun _ => none := by
  have hres : ∀ f < m.heap.vm.pageMap.totalPages, m.heap.vm.pageMap.pagemap f ≠ 0 →
      Spaces.reserved m.heap.vm f ≠ 0 := by
    intro f hf hne hz
    rw [Spaces.reserved, if_pos hf] at hz
    exact hne (UInt8.toNat_inj.mp hz)
  have hset : Settled (Spaces.reserved m.heap.vm) m.heap.vm m.live fun _ => none :=
    h.live ▸ Spaces.settled_initial m.heap.vm
  refine ⟨⟨hset, rfl, ?_, h.tree, ?_⟩, fun a => ?_, h.kheapBreak.ge, ?_⟩
  · rintro f ⟨hf, hff⟩
    exact hres f hf (by rw [hff]; decide)
  · intro page hp d hd f hf
    obtain ⟨hlt, hne⟩ := h.tree.used hp hd hf
    refine ⟨hres f hlt hne, ?_, fun hc => h.tables page hp d hd f hf hc.2⟩
    rintro ⟨r, hr, -⟩
    rw [h.live] at hr
    cases hr
  · rw [h.kheapBreak]
    unfold Heap.view bytes pageMem
    split_ifs with ha
    · rw [h.empty _ (page_mem_heapPages ha.1 ha.2)]
      simp only [kheapStart] at *
      simp
      omega
    · simp only [kheapStart] at *
      simp
      omega
  · rw [h.kheapBreak]
    decide

theorem of_reachable (hboot : Booted fb m) (hrun : Run.Reachable (Machine.step fb) Tidy m m') :
    ∃ base pos, Inv m.heap.vm m' base pos := by
  refine hrun.invariant (P := fun m' => ∃ base pos, Inv m.heap.vm m' base pos)
    ⟨_, _, .of_booted hboot⟩ ?_
  rintro m₁ c m₂ ⟨base, pos, hinv⟩ hok hs
  exact hinv.step hboot.framebuffer hok hs

end Inv

/-- In every run of tidy calls, `alloc` returns no frame that was reserved at boot. -/
theorem not_alloc_of_tidy (fb : Framebuffer) (m₀ m : Machine) (f : ℕ) (hboot : Booted fb m₀)
    (hf : Reserved m₀.heap.vm f) (hrun : Run.Reachable (step fb) Tidy m₀ m) :
    ∀ vm, m.heap.vm.alloc ≠ some (f, vm) := by
  obtain ⟨base, pos, hinv⟩ := Inv.of_reachable hboot hrun
  intro vm ha
  obtain ⟨-, -, hlt, hz, -⟩ := Vm.alloc_eq_some ha
  exact hinv.sealed.settled.counter_ne_zero_of_held hlt (hinv.sealed.keeps f hf) hz

section Example

/-- A machine with a kernel PML4 that is empty. -/
theorem booted_of_zero (hlive : m.live = []) (hbrk : m.heap.kheapBreak = kheapStart)
    (hmem : m.heap.vm.mem = fun _ _ => 0)
    (hroot : m.heap.vm.pageMap.pagemap m.heap.pml4 ≠ 0 ∧
      m.heap.vm.pageMap.pagemap m.heap.pml4 ≠ 0xff ∧ m.heap.pml4 < m.heap.vm.pageMap.totalPages)
    (hfb : ∀ i < fb.pageCount, fb.startPage + i < 2 ^ 28 ∧
      (fb.startPage + i < m.heap.vm.pageMap.totalPages →
        Reserved m.heap.vm (fb.startPage + i))) : Booted fb m := by
  have hzero : ∀ {page d f}, frameAt m.heap.vm m.heap.pml4 page d = some f →
      d = 0 ∧ f = m.heap.pml4 := by
    intro page d f hf
    cases d with
    | zero => exact ⟨rfl, (Option.some.inj hf).symm⟩
    | succ d =>
      obtain ⟨t, -, hp, -⟩ := frameAt_succ_eq_some_iff.mp hf
      rw [Vm.entry, hmem] at hp
      cases present_zero.symm.trans hp
  refine ⟨hlive, hbrk, ⟨?_, ?_⟩, ?_, ?_, hfb⟩
  · intro v v' d d' f hv hv' _ _ hf hf'
    obtain ⟨rfl, -⟩ := hzero hf
    obtain ⟨rfl, -⟩ := hzero hf'
    rw [mem_heapPages_iff] at hv hv'
    simp only [kheapStart, kheapEnd] at hv hv'
    refine ⟨rfl, ?_⟩
    unfold prefixAt
    omega
  · intro v d f _ _ hf
    obtain ⟨rfl, rfl⟩ := hzero hf
    exact ⟨hroot.2.2, hroot.1⟩
  · intro page _
    by_contra hne
    obtain ⟨f, hf⟩ := Option.ne_none_iff_exists'.mp hne
    cases (hzero hf).1
  · intro page _ d _ f hf
    obtain ⟨-, rfl⟩ := hzero hf
    exact hroot.2.1

/-- A framebuffer of one page, which is the last frame. -/
def smallScreen : Framebuffer := ⟨31 * 4096, 64, 16, 64, 32⟩

/-- A machine with 32 frames, of which the first and the last are not usable RAM. -/
def smallMachine : Machine where
  heap :=
    { vm :=
        { mem := fun _ _ => 0
          pageMap :=
            { totalPages := 32
              fits := by norm_num
              usablePages := 30
              freePageCount := 29
              usedPages := 1
              pagemap := fun f => if f = 0 ∨ f = 31 then 0xff else if f = 1 then 1 else 0 }
          kernelPml4 := some 1 }
      pml4 := 1
      kheapBreak := kheapStart
      heapStart := 0
      heapLast := 0
      calls := [] }
  live := []

theorem booted_smallMachine : Booted smallScreen smallMachine := by
  refine booted_of_zero rfl rfl rfl (by decide) fun i hi => ?_
  obtain rfl : i = 0 := Nat.lt_one_iff.mp hi
  exact ⟨by decide, fun _ => ⟨by decide, by decide⟩⟩

/-- The heap grows and shrinks, a process maps the framebuffer and a page, another one with a page
is deleted, and the first one forks. -/
def tidyCalls : List Call :=
  [.kbrk 5000, .kbrk (2 ^ 64 - 4500), .space .create, .fbInfo 0 1,
    .space (.map 0 5 (fun _ => 7) ⟨true, true, false, false, false⟩), .space .create,
    .space (.map 1 5 (fun _ => 7) ⟨true, true, false, false, false⟩), .space (.destroy 1),
    .space (.clone 0)]

/-- Then the child writes to the page. -/
theorem not_alloc_of_tidy_smallMachine : ∃ m m',
    Run.guardedRun (step smallScreen) Tidy smallMachine tidyCalls = some m ∧
      m.step smallScreen (.space (.triggerCow 1 5)) = some m' ∧
      (∀ vm, m'.heap.vm.alloc ≠ some (0, vm)) ∧ ∀ vm, m'.heap.vm.alloc ≠ some (31, vm) := by
  have hrun : (Run.guardedRun (step smallScreen) Tidy smallMachine tidyCalls).map
      (fun m => (m.live, decide (3 < m.heap.vm.pageMap.freeFrames))) = some ([6, 14], true) := by
    decide +kernel
  obtain ⟨m, hm, he⟩ := Option.map_eq_some_iff.mp hrun
  obtain ⟨hlive, hfree⟩ := Prod.mk.inj he
  have hreach := Run.reachable_of_guardedRun hm
  obtain ⟨base, pos, hinv⟩ := Inv.of_reachable booted_smallMachine hreach
  obtain ⟨b, vm, hcow⟩ := hinv.sealed.settled.exists_triggerCow
    (show 14 ∈ m.live by simp [hlive]) (show 5 < userPages by decide) (of_decide_eq_true hfree)
  obtain ⟨m', hs⟩ : ∃ m', m.step smallScreen (.space (.triggerCow 1 5)) = some m' := by
    simp [step, spaces, Spaces.step, hlive, hcow]
  have hreach' : Run.Reachable (step smallScreen) Tidy smallMachine m' :=
    .step (i := .space (.triggerCow 1 5)) hreach (show 5 < userPages by decide) hs
  exact ⟨m, m', hm, hs,
    not_alloc_of_tidy smallScreen smallMachine m' 0 booted_smallMachine ⟨by decide, rfl⟩ hreach',
    not_alloc_of_tidy smallScreen smallMachine m' 31 booted_smallMachine ⟨by decide, rfl⟩ hreach'⟩

/-! Frame 0 is taken from the kernel by moving the break up and down by one page. -/

/-- The counters when the frames below `k` are in use. -/
def counters (k : ℕ) (n : UInt8) (f : ℕ) : UInt8 := if f = 0 then n else if f < k then 1 else 0

/-- A machine with eight frames; frame 1 is the PML4 of the kernel, frame 0 has the counter `n`. -/
def eightFrames (mem : ℕ → ℕ → BitVec 64) (k : ℕ) (n : UInt8) (free used : UInt64) : Vm :=
  ⟨mem, ⟨⟨8, 7, free, used, counters k n⟩, (Spaces.blank 8).pageMap.fits⟩, some 1⟩

/-- Memory with one more entry. -/
def link (mem : ℕ → ℕ → BitVec 64) (t i : ℕ) (e : BitVec 64) : ℕ → ℕ → BitVec 64 :=
  Function.update mem t (Function.update (mem t) i e)

/-- The page tables of a heap with one page. -/
def heapMem : ℕ → ℕ → BitVec 64 :=
  link (link (link (link (fun _ _ => 0) 1 510 (ofTable 3)) 3 0 (ofTable 4)) 4 0 (ofTable 5)) 5 0
    (ofPage 2 heapFlags)

/-- A heap with one page and the break behind it. -/
def worn (n : UInt8) (free used : UInt64) (calls : List PageCall) : Heap :=
  ⟨eightFrames heapMem 6 n free used, 1, kheapStart + 4096, 0, 0, calls⟩

theorem counters_succ {k : ℕ} (hk : 0 < k) (n : UInt8) :
    Function.update (counters k n) k 1 = counters (k + 1) n := by
  funext f
  rcases eq_or_ne f k with rfl | hne
  · simp [counters, hk.ne']
  · rw [Function.update_of_ne hne]
    have : f < k ↔ f < k + 1 := by omega
    simp only [counters, this]

theorem alloc_eightFrames {n : UInt8} {mem : ℕ → ℕ → BitVec 64} {k : ℕ} {free used : UInt64}
    (hn : n ≠ 0) (h₁ : 0 < k) (h₂ : k < 8) : (eightFrames mem k n free used).alloc =
      some (k, eightFrames mem (k + 1) n (free - 1) (used + 1)) := by
  have hfind : (List.range 8).find? (fun i => counters k n i == 0) = some k := by
    rw [List.find?_range_eq_some]
    refine ⟨by simp [counters, h₁.ne'], by simpa using h₂, fun j hj => ?_⟩
    rcases eq_or_ne j 0 with rfl | h0
    · simpa [counters] using hn
    · simp [counters, h0, hj]
  have hk : counters k n k = 0 := by simp [counters, h₁.ne']
  simp only [Vm.alloc, PageMap.alloc_eq, eightFrames, hfind, PageMap.pagemap_atomicAdd8,
    Option.map_some, hk,
    ← counters_succ h₁]
  rfl

theorem setEntry_eightFrames {n : UInt8} {mem : ℕ → ℕ → BitVec 64} {k t i : ℕ}
    {free used : UInt64} {e : GenericPagingTable} :
    (eightFrames mem k n free used).setEntry t i e = eightFrames (link mem t i e) k n free used :=
  rfl

/-- The first page of the heap region. -/
def heapPage : ℕ := kheapStart / 4096

/-- The tables while the page behind the first one is mapped to frame 6. -/
def stretchedMem : ℕ → ℕ → BitVec 64 := link heapMem 5 1 (ofPage 6 heapFlags)

/-- The heap with the break moved up by one page. -/
def stretched (n : UInt8) (free used : UInt64) (calls : List PageCall) : Heap :=
  ⟨eightFrames stretchedMem 7 n free used, 1, kheapStart + 8192, 0, 0, calls⟩

theorem frameAt_worn {s : Vm} {page : ℕ} (hs : s.mem = heapMem ∨ s.mem = stretchedMem)
    (hp : page = heapPage + 1 ∨ page = heapPage + 2) :
    frameAt s 1 page 1 = some 3 ∧ frameAt s 1 page 2 = some 4 ∧ frameAt s 1 page 3 = some 5 := by
  have hsame : ∀ d, frameAt s 1 page d =
      frameAt { Spaces.blank 8 with mem := s.mem } 1 page d :=
    fun d => frameAt_congr_mem fun _ _ _ _ => rfl
  rw [hsame, hsame, hsame]
  rcases hs with hs | hs <;> rw [hs] <;> rcases hp with rfl | rfl <;> decide

theorem lt_of_frameAt_worn {s : Vm} {page d u : ℕ} (hs : s.mem = heapMem ∨ s.mem = stretchedMem)
    (hp : page = heapPage + 1 ∨ page = heapPage + 2) (hd : d ≤ 3)
    (hu : frameAt s 1 page d = some u) : u < 8 := by
  obtain ⟨h₁, h₂, h₃⟩ := frameAt_worn hs hp
  interval_cases d
  · cases hu
    decide
  · rw [h₁] at hu
    cases hu
    decide
  · rw [h₂] at hu
    cases hu
    decide
  · rw [h₃] at hu
    cases hu
    decide

theorem tableIndex_heapPage :
    tableIndex 0 (heapPage + 1) = 1 ∧ tableIndex 0 (heapPage + 2) = 2 := by
  decide

theorem kbrk_worn {n : UInt8} (hn : n ≠ 0) (free used : UInt64) (calls : List PageCall) :
    ∃ o calls', (worn n free used calls).kbrk 4096 =
      some (o, stretched n (free - 1) (used + 1) calls') := by
  have hlist : List.range'
      ((kheapStart + 4096) / 4096 + if (kheapStart + 4096) % 4096 ≠ 0 then 1 else 0)
      (((kheapStart + 4096 + 4096) % 2 ^ 64 + 2 ^ 64 - 1) % 2 ^ 64 / 4096 + 1 -
        ((kheapStart + 4096) / 4096 + if (kheapStart + 4096) % 4096 ≠ 0 then 1 else 0)) =
      [heapPage + 1] := by decide
  have hge : ¬ (kheapStart + 4096 + 4096) % 2 ^ 64 < kheapStart + 4096 := by decide
  have hmap : AddrSpace.map 1 (heapPage + 1) 6 heapFlags
      (eightFrames heapMem 7 n (free - 1) (used + 1)) =
      some (eightFrames stretchedMem 7 n (free - 1) (used + 1)) := by
    rw [map_of_table (frameAt_worn (Or.inl rfl) (Or.inl rfl)).2.2, tableIndex_heapPage.1]
    · rfl
    · rw [tableIndex_heapPage.1]
      exact present_zero
  refine ⟨kheapStart + 4096, calls ++
    [⟨true, heapPage + 1, (worn n free used calls).isMapped (heapPage + 1)⟩], ?_⟩
  have hbrk : (worn n free used calls).kheapBreak = kheapStart + 4096 := rfl
  have hpml4 : (worn n free used calls).pml4 = 1 := rfl
  have hvm : (worn n free used calls).vm = eightFrames heapMem 6 n free used := rfl
  simp only [kbrk, hbrk, if_neg hge, hlist, List.foldlM_cons, List.foldlM_nil, mapPage, hvm, hpml4,
    alloc_eightFrames hn (show 0 < 6 by decide) (by decide), hmap, Option.bind_eq_bind,
    Option.bind_some, Option.pure_def]
  rfl

theorem checkForPresentEntries_heapMem (n : UInt8) (free used : UInt64) :
    checkForPresentEntries (eightFrames heapMem 6 n free used) 5 = true := by
  have hp : present (heapMem 5 0) = true := by decide
  exact List.any_eq_true.mpr ⟨0, List.mem_range.mpr (by decide), hp⟩

theorem unmap_stretched (n : UInt8) (free used : UInt64) :
    AddrSpace.unmap 1 (heapPage + 1) (eightFrames stretchedMem 7 n free used) =
      some (eightFrames heapMem 6 n (free + 1) (used - 1)) := by
  have hmem : link stretchedMem 5 1 0 = heapMem := by
    have hz : heapMem 5 1 = 0 := rfl
    unfold stretchedMem link
    rw [Function.update_self, Function.update_idem, Function.update_idem, ← hz,
      Function.update_eq_self, Function.update_eq_self]
  have hcount : Function.update (counters 7 n) 6 (1 + -1) = counters 6 n := by
    have h6 : counters 6 n 6 = 1 + -1 := rfl
    rw [← counters_succ (by decide), Function.update_idem, ← h6, Function.update_eq_self]
  have hfree : (eightFrames stretchedMem 7 n free used).free 6 =
      some (eightFrames stretchedMem 6 n (free + 1) (used - 1)) := by
    have h6 : counters 7 n 6 = 1 := rfl
    simp only [Vm.free, eightFrames, PageMap.free_eq, PageMap.pagemap_atomicAdd8, h6, hcount]
    rfl
  have hppn : ppn (stretchedMem 5 1) = 6 := by decide
  have hfree' : (eightFrames stretchedMem 7 n free used).free
      (ppn ((eightFrames stretchedMem 7 n free used).entry 5 (tableIndex 0 (heapPage + 1)))) =
      some (eightFrames stretchedMem 6 n (free + 1) (used - 1)) := by
    rw [tableIndex_heapPage.1]
    exact (congrArg _ hppn).trans hfree
  refine unmap_of_table (frameAt_worn (Or.inr rfl) (Or.inl rfl)).2.2
    (fun d hd u hu => lt_of_frameAt_worn (Or.inr rfl) (Or.inl rfl) hd hu) hfree' ?_
    (checkForPresentEntries_heapMem n _ _)
  rw [tableIndex_heapPage.1, setEntry_eightFrames, hmem]

/-- Unmapping the page behind it, which is not mapped, takes a reference from frame 0. -/
theorem unmap_worn {n : UInt8} (hn : n ≠ 0) (free used : UInt64) :
    ∃ free' used', AddrSpace.unmap 1 (heapPage + 2) (eightFrames heapMem 6 n free used) =
      some (eightFrames heapMem 6 (n - 1) free' used') := by
  have hcount : Function.update (counters 6 n) 0 (n + -1) = counters 6 (n - 1) := by
    rw [← UInt8.sub_eq_add_neg]
    funext f
    rcases eq_or_ne f 0 with rfl | hf
    · rfl
    · simp [counters, hf]
  have h0 : counters 6 n 0 = n := rfl
  obtain ⟨free', used', hfree⟩ : ∃ free' used', (eightFrames heapMem 6 n free used).free 0 =
      some (eightFrames heapMem 6 (n - 1) free' used') := by
    rcases eq_or_ne n 1 with rfl | h1
    · refine ⟨free + 1, used - 1, ?_⟩
      simp only [Vm.free, eightFrames, PageMap.free_eq, PageMap.pagemap_atomicAdd8, h0, hcount]
      rfl
    · refine ⟨free, used, ?_⟩
      simp only [Vm.free, eightFrames, PageMap.free_eq, PageMap.atomicAdd8, PageMap.store,
        Counters.atomicAdd8, h0, hcount, if_neg hn, if_neg h1]
      rfl
  have hmem : link heapMem 5 2 0 = heapMem := by
    have hz : heapMem 5 2 = 0 := rfl
    rw [link, ← hz, Function.update_eq_self, Function.update_eq_self]
  have hppn : ppn (heapMem 5 2) = 0 := by decide
  have hfree' : (eightFrames heapMem 6 n free used).free
      (ppn ((eightFrames heapMem 6 n free used).entry 5 (tableIndex 0 (heapPage + 2)))) =
      some (eightFrames heapMem 6 (n - 1) free' used') := by
    rw [tableIndex_heapPage.2]
    exact (congrArg _ hppn).trans hfree
  refine ⟨free', used', unmap_of_table (frameAt_worn (Or.inl rfl) (Or.inr rfl)).2.2
    (fun d hd u hu => lt_of_frameAt_worn (Or.inl rfl) (Or.inr rfl) hd hu) hfree' ?_
    (checkForPresentEntries_heapMem _ _ _)⟩
  rw [tableIndex_heapPage.2, setEntry_eightFrames, hmem]

theorem kbrk_stretched {n : UInt8} (hn : n ≠ 0) (free used : UInt64) (calls : List PageCall) :
    ∃ o free' used' calls', (stretched n free used calls).kbrk (2 ^ 64 - 4096) =
      some (o, worn (n - 1) free' used' calls') := by
  have hlist : List.range' ((kheapStart + 8192 + (2 ^ 64 - 4096)) % 2 ^ 64 / 4096 +
        if (kheapStart + 8192 + (2 ^ 64 - 4096)) % 2 ^ 64 % 4096 ≠ 0 then 1 else 0)
      ((kheapStart + 8192) / 4096 + 1 - ((kheapStart + 8192 + (2 ^ 64 - 4096)) % 2 ^ 64 / 4096 +
        if (kheapStart + 8192 + (2 ^ 64 - 4096)) % 2 ^ 64 % 4096 ≠ 0 then 1 else 0)) =
      [heapPage + 1, heapPage + 2] := by decide
  have hlt : (kheapStart + 8192 + (2 ^ 64 - 4096)) % 2 ^ 64 < kheapStart + 8192 := by decide
  obtain ⟨free', used', hunmap⟩ := unmap_worn hn (free + 1) (used - 1)
  refine ⟨kheapStart + 8192, free', used', calls ++
    [⟨false, heapPage + 1, (stretched n free used calls).isMapped (heapPage + 1)⟩] ++
    [⟨false, heapPage + 2, (worn n (free + 1) (used - 1) calls).isMapped (heapPage + 2)⟩], ?_⟩
  have hbrk : (stretched n free used calls).kheapBreak = kheapStart + 8192 := rfl
  have hpml4 : (stretched n free used calls).pml4 = 1 := rfl
  have hvm : (stretched n free used calls).vm = eightFrames stretchedMem 7 n free used := rfl
  simp only [kbrk, hbrk, hpml4, hvm, if_pos hlt, hlist, List.foldlM_cons,
    List.foldlM_nil, unmapPage,
    unmap_stretched n free used, hunmap, Option.bind_eq_bind, Option.bind_some, Option.pure_def]
  rfl

/-- The heap before its first page. -/
def bootHeap : Heap := ⟨eightFrames (fun _ _ => 0) 2 0xff 6 1, 1, kheapStart, 0, 0, []⟩

def bootMachine : Machine := ⟨bootHeap, []⟩

/-- A framebuffer without pages. -/
def noScreen : Framebuffer := ⟨0, 0, 0, 0, 0⟩

theorem booted_bootMachine : Booted noScreen bootMachine := by
  refine booted_of_zero rfl rfl rfl (by decide) fun i hi => ?_
  simp [noScreen, Framebuffer.pageCount] at hi

/-- A new table on the way of `map`. -/
theorem mapFrom_eightFrames {n : UInt8} {mem : ℕ → ℕ → BitVec 64} {k t v phys level : ℕ}
    {free used : UInt64} {flags : MapFlags} (hn : n ≠ 0) (h₁ : 0 < k) (h₂ : k < 8)
    (hz : mem k = fun _ => 0) (hp : present (mem t (tableIndex (level + 1) v)) = false) :
    mapFrom v phys flags (level + 1) t (eightFrames mem k n free used) =
      mapFrom v phys flags level k (eightFrames (link mem t (tableIndex (level + 1) v) (ofTable k))
        (k + 1) n (free - 1) (used + 1)) := by
  have hp' : present ((eightFrames mem k n free used).entry t (tableIndex (level + 1) v)) = false :=
    hp
  have hppn : ppn (ofTable k) = k := by
    rw [ppn_ofTable, Nat.mod_eq_of_lt (by omega)]
  have hclear : (eightFrames mem (k + 1) n (free - 1) (used + 1)).setFrame k (fun _ => 0) =
      eightFrames mem (k + 1) n (free - 1) (used + 1) := by
    rw [Vm.setFrame, ← hz]
    simp only [eightFrames, Function.update_eq_self]
  rw [mapFrom]
  simp only [hp', Bool.false_eq_true, if_false, alloc_eightFrames hn h₁ h₂, Option.bind_eq_bind,
    Option.bind_some, hclear, Vm.entry_setEntry_self, hppn, setEntry_eightFrames]

theorem kbrk_bootHeap : ∃ o free used calls,
    bootHeap.kbrk 4096 = some (o, worn 0xff free used calls) := by
  have hlist : List.range' (kheapStart / 4096 + if kheapStart % 4096 ≠ 0 then 1 else 0)
      (((kheapStart + 4096) % 2 ^ 64 + 2 ^ 64 - 1) % 2 ^ 64 / 4096 + 1 -
        (kheapStart / 4096 + if kheapStart % 4096 ≠ 0 then 1 else 0)) = [heapPage] := by
    decide
  have hge : ¬ (kheapStart + 4096) % 2 ^ 64 < kheapStart := by decide
  obtain ⟨h3, h2, h1, h0⟩ : tableIndex 3 heapPage = 510 ∧ tableIndex 2 heapPage = 0 ∧
      tableIndex 1 heapPage = 0 ∧ tableIndex 0 heapPage = 0 := by decide
  have hmap : ∃ free used, AddrSpace.map 1 heapPage 2 heapFlags
      (eightFrames (fun _ _ => 0) 3 0xff 5 2) = some (eightFrames heapMem 6 0xff free used) := by
    rw [AddrSpace.map, mapFrom_eightFrames (by decide) (by decide) (by decide) rfl present_zero, h3,
      mapFrom_eightFrames (by decide) (by decide) (by decide) rfl (h2 ▸ present_zero), h2,
      mapFrom_eightFrames (by decide) (by decide) (by decide) rfl (h1 ▸ present_zero), h1,
      mapFrom, h0, if_neg (by decide)]
    exact ⟨_, _, rfl⟩
  obtain ⟨free, used, hmap⟩ := hmap
  refine ⟨kheapStart, free, used, [⟨true, heapPage, bootHeap.isMapped heapPage⟩], ?_⟩
  have hbrk : bootHeap.kheapBreak = kheapStart := rfl
  have hpml4 : bootHeap.pml4 = 1 := rfl
  have hvm : bootHeap.vm = eightFrames (fun _ _ => 0) 2 0xff 6 1 := rfl
  simp only [kbrk, hbrk, hpml4, hvm, if_neg hge, hlist, List.foldlM_cons, List.foldlM_nil, mapPage,
    alloc_eightFrames (n := 0xff) (by decide) (show 0 < 2 by decide) (by decide),
    Option.bind_eq_bind, Option.bind_some, Option.pure_def]
  rw [show (6 - 1 : UInt64) = 5 from rfl, show (1 + 1 : UInt64) = 2 from rfl, hmap]
  rfl

theorem reachable_round {n : UInt8} (hn : n ≠ 0) {free used : UInt64} {calls : List PageCall}
    (h : Run.Reachable (step noScreen) Ordinary bootMachine ⟨worn n free used calls, []⟩) :
    ∃ free' used' calls', Run.Reachable (step noScreen) Ordinary bootMachine
      ⟨worn (n - 1) free' used' calls', []⟩ := by
  obtain ⟨o, calls₁, hup⟩ := kbrk_worn hn free used calls
  obtain ⟨o', free', used', calls', hdown⟩ := kbrk_stretched hn (free - 1) (used + 1) calls₁
  refine ⟨free', used', calls', .step (i := .kbrk (2 ^ 64 - 4096)) (.step (i := .kbrk 4096) h ?_
    (by rw [step, hup]; rfl)) ?_ (by rw [step, hdown]; rfl)⟩
  · have hbrk : (worn n free used calls).kheapBreak = kheapStart + 4096 := rfl
    rw [Ordinary, hbrk]
    decide
  · have hbrk : (stretched n (free - 1) (used + 1) calls₁).kheapBreak = kheapStart + 8192 := rfl
    rw [Ordinary, hbrk]
    decide

/-- Frame 0 loses all its references. -/
theorem exists_reachable_worn_zero : ∃ free used calls,
    Run.Reachable (step noScreen) Ordinary bootMachine ⟨worn 0 free used calls, []⟩ := by
  have hall : ∀ k ≤ 255, ∃ free used calls, Run.Reachable (step noScreen) Ordinary bootMachine
      ⟨worn (UInt8.ofNat (255 - k)) free used calls, []⟩ := by
    intro k
    induction k with
    | zero =>
      intro _
      obtain ⟨o, free, used, calls, hboot⟩ := kbrk_bootHeap
      have hbrk : bootMachine.heap.kheapBreak = kheapStart := rfl
      refine ⟨free, used, calls, .step (i := .kbrk 4096) .init ?_ ?_⟩
      · rw [Ordinary, hbrk]
        decide
      · rw [step, show bootMachine.heap = bootHeap from rfl, hboot]
        rfl
    | succ k ih =>
      intro hk
      obtain ⟨free, used, calls, hreach⟩ := ih (by omega)
      have hne : UInt8.ofNat (255 - k) ≠ 0 := by
        intro hz
        have := congrArg UInt8.toNat hz
        simp only [UInt8.toNat_ofNat', UInt8.toNat_zero] at this
        omega
      have hsub : UInt8.ofNat (255 - k) - 1 = UInt8.ofNat (255 - (k + 1)) := by
        rw [show (1 : UInt8) = UInt8.ofNat 1 from rfl, ← UInt8.ofNat_sub (by omega)]
        congr 1
      exact hsub ▸ reachable_round hne hreach
  exact hall 255 le_rfl

theorem not_alloc_unavailable : ¬ ∀ (fb : Framebuffer) (m₀ m : Machine) (f : ℕ), Booted fb m₀ →
    Reserved m₀.heap.vm f → Run.Reachable (step fb) Ordinary m₀ m →
    ∀ vm, m.heap.vm.alloc ≠ some (f, vm) := by
  intro hall
  obtain ⟨free, used, calls, hreach⟩ := exists_reachable_worn_zero
  refine hall noScreen bootMachine _ 0 booted_bootMachine ⟨by decide, rfl⟩ hreach
    { (worn 0 free used calls).vm with
      pageMap := { (worn 0 free used calls).vm.pageMap.atomicAdd8 0 1 with
        freePageCount := free - 1
        usedPages := used + 1 } } ?_
  simp [Vm.alloc, worn, eightFrames, PageMap.alloc_eq, counters, List.range_succ]

end Example

end Machine

end Koerix
