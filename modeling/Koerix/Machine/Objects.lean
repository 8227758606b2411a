import Koerix.AddrSpace.Clone
import Koerix.AddrSpace.Destroy
import Koerix.Heap.Capacity
import Koerix.Heap.Clients

/-! # Address spaces on the heap

The constructor of an address space copies the upper half of the kernel's PML4
once. The heap lives in that half, and moving its break adds and removes tables
there. An `AddrSpace` is itself a block of the heap, so while there is one, the
first page of the heap is mapped and its entry in the PML4 stays. The other
entry that the heap uses also leads to the kernel's code, and the tables of the
remaining entries never change.
-/

namespace Koerix

open AddrSpace GenericPagingTable Heap

/-- The heap with its clients, and the live `AddrSpace` objects: their block and their PML4. -/
structure Objects where
  clients : Clients
  spaces : List (ℕ × ℕ)

namespace Objects

/-- A call of the heap, or one of `new AddrSpace`, `clone` and `delete`. -/
inductive Call
  | heap (c : Heap.Call)
  | create (size line function : ℕ)
  | clone (a size line function : ℕ)
  | delete (a : ℕ)

def vm (s : Objects) : Vm := s.clients.heap.vm

/-- The kernel's PML4, through which the heap is mapped. -/
def kernel (s : Objects) : ℕ := s.clients.heap.pml4

/-- The heap after a change of the machine's memory. -/
def withVm (c : Clients) (vm : Vm) : Clients := { c with heap := { c.heap with vm } }

/-- `new`: the constructor runs once `kmalloc` has returned the block of the object. -/
def new (construct : Vm → Option (ℕ × Vm)) (size line function : ℕ) (s : Objects) :
    Option Objects := do
  let clients ← s.clients.step (.kmalloc size line function)
  let k ← clients.live.getLast?
  let (pml4, vm) ← construct clients.heap.vm
  return ⟨withVm clients vm, s.spaces ++ [(k.1, pml4)]⟩

def step (s : Objects) : Call → Option Objects
  | .heap c => (s.clients.step c).map fun clients => { s with clients }
  | .create size line function => s.new AddrSpace.create size line function
  | .clone a size line function => do
    let x ← s.spaces[a]?
    s.new (AddrSpace.clone x.2) size line function
  | .delete a => do
    let x ← s.spaces[a]?
    let vm ← AddrSpace.destroy x.2 s.vm
    let i := s.clients.live.findIdx fun k => k.1 == x.1
    let clients ← (withVm s.clients vm).step (.kfree i)
    return ⟨clients, s.spaces.eraseIdx a⟩

/-- The heap does not shrink from a page boundary when the block at `ptr` is freed. -/
def Shrinks (s : Objects) (ptr : ℕ) : Prop :=
  ptr = s.clients.heap.heapLast + headerSize → s.clients.heap.kheapBreak % 4096 ≠ 0

instance (s : Objects) (ptr : ℕ) : Decidable (s.Shrinks ptr) := inferInstanceAs (Decidable (_ → _))

/-- Sizes are positive as a signed increment of the break. Blocks are freed once, and those of
address spaces only by `delete`; clients store into their own payload. -/
def Ordinary (s : Objects) : Call → Prop
  | .heap (.kmalloc size _ _) => size + headerSize < 2 ^ 63
  | .heap (.kfree i) => i < s.clients.live.length ∧
      ∀ k ∈ s.clients.live[i]?, k.1 ∉ s.spaces.map Prod.fst ∧ s.Shrinks k.1
  | .heap (.store i offset _) => ∀ k ∈ s.clients.live[i]?, offset < k.2
  | .create size _ _ => size + headerSize < 2 ^ 63
  | .clone _ size _ _ => size + headerSize < 2 ^ 63
  | .delete a => ∀ x ∈ s.spaces[a]?, s.Shrinks x.1

instance (s : Objects) : DecidablePred (Ordinary s)
  | .heap (.kmalloc _ _ _) => inferInstanceAs (Decidable (_ < _))
  | .heap (.kfree i) => inferInstanceAs (Decidable (_ ∧ ∀ k ∈ s.clients.live[i]?, _ ∧ _))
  | .heap (.store i offset _) =>
    inferInstanceAs (Decidable (∀ k ∈ s.clients.live[i]?, offset < k.2))
  | .create _ _ _ => inferInstanceAs (Decidable (_ < _))
  | .clone _ _ _ _ => inferInstanceAs (Decidable (_ < _))
  | .delete a => inferInstanceAs (Decidable (∀ x ∈ s.spaces[a]?, s.Shrinks x.1))

/-- After `setup`: the heap is empty, the kernel's code shares the last entry of the PML4 with the
heap, and the tables of the entries before the heap are in use. -/
structure Booted (s : Objects) : Prop where
  heap : Clients.Initial s.clients
  spaces : s.spaces = []
  kernel : s.vm.kernelPml4 = some s.kernel
  code : Anchored heapPages s.kernel (kheapEnd / 4096) s.vm
  ident : ∀ i, 256 ≤ i → i < 510 → present (s.vm.entry s.kernel i) = true →
    Spare heapPages s.kernel (ppn (s.vm.entry s.kernel i)) s.vm

/-- The address spaces with the given PML4s show the upper half of the kernel's, and nothing in
the lower half. -/
structure Mirrored (pml4 : ℕ) (roots : List ℕ) (vm : Vm) : Prop where
  kernel : vm.kernelPml4 = some pml4
  code : Anchored heapPages pml4 (kheapEnd / 4096) vm
  ident : ∀ i, 256 ≤ i → i < 510 → present (vm.entry pml4 i) = true →
    Spare heapPages pml4 (ppn (vm.entry pml4 i)) vm ∧ ppn (vm.entry pml4 i) ∉ roots
  nodup : roots.Nodup
  spare : ∀ r ∈ roots, Spare heapPages pml4 r vm
  lower : ∀ r ∈ roots, ∀ i < 256, present (vm.entry r i) = false
  upper : ∀ r ∈ roots, ∀ i, 256 ≤ i → i < 512 → vm.entry r i = vm.entry pml4 i

/-- The invariant of all runs. -/
structure Inv (pml4 : ℕ) (s : Objects) : Prop where
  heap : ∃ v bs, s.clients.Inv v bs
  pml4_eq : s.kernel = pml4
  mirrored : Mirrored pml4 (s.spaces.map Prod.snd) s.vm
  nodup : (s.spaces.map Prod.fst).Nodup
  owns : ∀ x ∈ s.spaces, x.1 ∈ s.clients.live.map Prod.fst

variable {s s' : Objects} {c : Call} {pml4 n r i : ℕ} {roots : List ℕ} {vm vm' : Vm} {grow : Bool}

theorem tableIndex_heapPages {page : ℕ} (h : page ∈ heapPages) :
    tableIndex 3 page = 510 ∨ tableIndex 3 page = 511 := by
  rw [mem_heapPages_iff] at h
  simp only [kheapStart, kheapEnd] at h
  rw [tableIndex_eq]
  omega

theorem tableIndex_ne_code {page : ℕ} (h : page ∈ heapPages)
    (hq : prefixAt 1 page = prefixAt 1 (kheapEnd / 4096)) : tableIndex 2 page ≠ 510 := by
  rw [mem_heapPages_iff] at h
  simp only [kheapStart, kheapEnd, prefixAt] at h hq
  rw [tableIndex_eq]
  omega

theorem kheapEnd_mem : kheapEnd / 4096 ∈ heapPages := page_mem_heapPages (by decide) le_rfl

theorem present_of_anchored (h : Anchored heapPages pml4 (kheapEnd / 4096) vm) :
    present (vm.entry pml4 511) = true := by
  obtain ⟨t, ht, -⟩ := h
  obtain ⟨u, hu, hp, -⟩ := frameAt_succ_eq_some_iff.mp ht
  cases hu
  exact hp

theorem entry_create (hc : AddrSpace.create vm = some (n, vm')) (hk : vm.kernelPml4 = some pml4)
    (hne : pml4 ≠ n) (hi : 256 ≤ i) : vm'.entry n i = vm.entry pml4 i := by
  simp only [AddrSpace.create, Option.bind_eq_bind, Option.bind_eq_some_iff, Option.pure_def,
    Option.some.injEq, Prod.mk.injEq, Prod.exists] at hc
  obtain ⟨f, vm₁, ha, rfl, rfl⟩ := hc
  obtain ⟨hmem, hk₁, -⟩ := Vm.alloc_eq_some ha
  have hk₂ : (vm₁.setFrame f fun _ => 0).kernelPml4 = some pml4 := hk₁.trans hk
  rw [updateKernelMappings, hk₂]
  dsimp only
  rw [Vm.entry, Vm.mem_setFrame_self, if_pos hi, Vm.mem_setFrame_of_ne hne, hmem]
  rfl

theorem foldl_cloneEntry_of_absent {is : List ℕ} (h : ∀ i ∈ is, present (vm.entry r i) = false) :
    is.foldl (cloneEntry r n) vm = vm := by
  induction is with
  | nil => rfl
  | cons i is ih =>
    have hi : cloneEntry r n vm i = vm := by simp [cloneEntry, h i (by simp)]
    rw [List.foldl_cons, hi]
    exact ih fun j hj => h j (by simp [hj])

namespace Mirrored

/-- The heap keeps the upper halves equal as long as its first page stays mapped. -/
theorem of_beside (h : Mirrored pml4 roots vm) (hb : Beside grow heapPages pml4 vm vm')
    (hfirst : roots ≠ [] → present (vm.entry pml4 510) = true ∧
      present (vm'.entry pml4 510) = true) : Mirrored pml4 roots vm' := by
  have hcode := hb.anchored _ kheapEnd_mem h.code
  have hlow : ∀ i < 510, vm'.entry pml4 i = vm.entry pml4 i := by
    intro i hi
    refine (hb.row i).resolve_right ?_
    rintro ⟨⟨page, hpage, rfl⟩, -⟩
    rcases tableIndex_heapPages hpage with he | he <;> omega
  have hrow : roots ≠ [] → ∀ i, vm'.entry pml4 i = vm.entry pml4 i := by
    intro hne i
    refine (hb.row i).resolve_right ?_
    rintro ⟨⟨page, hpage, rfl⟩, habs⟩
    obtain ⟨hp, hp'⟩ := hfirst hne
    have h511 := present_of_anchored h.code
    have h511' := present_of_anchored hcode
    rcases tableIndex_heapPages hpage with he | he <;> rw [he] at habs <;> cases grow <;>
      simp_all
  have hmem : ∀ r ∈ roots, vm'.mem r = vm.mem r := fun r hr => (hb.spare r (h.spare r hr)).2.1
  exact
    { kernel := hb.kernelPml4.trans h.kernel
      code := hcode
      ident := fun i hlo hhi hp => by
        rw [hlow i hhi] at hp ⊢
        obtain ⟨hspare, hnot⟩ := h.ident i hlo hhi hp
        exact ⟨(hb.spare _ hspare).1, hnot⟩
      nodup := h.nodup
      spare := fun r hr => (hb.spare r (h.spare r hr)).1
      lower := fun r hr i hi => by
        rw [Vm.entry_congr (hmem r hr)]
        exact h.lower r hr i hi
      upper := fun r hr i hlo hhi => by
        rw [Vm.entry_congr (hmem r hr), hrow (List.ne_nil_of_mem hr) i]
        exact h.upper r hr i hlo hhi }

theorem of_onlyAt (h : Mirrored pml4 roots vm) (ho : OnlyAt n vm vm')
    (hoff : ∀ v ∈ heapPages, ∀ d ≤ 4, frameAt vm pml4 v d ≠ some n) {roots' : List ℕ}
    (hsub : roots'.Sublist roots) (hn : n ∉ roots')
    (hident : ∀ i, 256 ≤ i → i < 510 → present (vm.entry pml4 i) = true →
      ppn (vm.entry pml4 i) ≠ n) : Mirrored pml4 roots' vm' := by
  have hpml4 : vm'.mem pml4 = vm.mem pml4 :=
    ho.mem pml4 fun he => hoff _ kheapEnd_mem 0 (by decide) (he ▸ rfl)
  have hne : ∀ r ∈ roots', r ≠ n := fun r hr he => hn (he ▸ hr)
  exact
    { kernel := ho.kernelPml4.trans h.kernel
      code := ho.anchored hoff kheapEnd_mem h.code
      ident := fun i hlo hhi hp => by
        rw [Vm.entry_congr hpml4] at hp ⊢
        obtain ⟨hspare, hnot⟩ := h.ident i hlo hhi hp
        exact ⟨ho.spare hoff (hident i hlo hhi hp) hspare, fun hm => hnot (hsub.subset hm)⟩
      nodup := h.nodup.sublist hsub
      spare := fun r hr => ho.spare hoff (hne r hr) (h.spare r (hsub.subset hr))
      lower := fun r hr i hi => by
        rw [Vm.entry_congr (ho.mem r (hne r hr))]
        exact h.lower r (hsub.subset hr) i hi
      upper := fun r hr i hlo hhi => by
        rw [Vm.entry_congr (ho.mem r (hne r hr)), Vm.entry_congr hpml4]
        exact h.upper r (hsub.subset hr) i hlo hhi }

/-- The constructor takes a free frame and copies the upper half. -/
theorem create (h : Mirrored pml4 roots vm) (htree : Tree heapPages pml4 vm)
    (hc : AddrSpace.create vm = some (n, vm')) : Mirrored pml4 (roots ++ [n]) vm' ∧
      OnlyAt n vm vm' ∧ ∀ v ∈ heapPages, ∀ d ≤ 4, frameAt vm pml4 v d ≠ some n := by
  obtain ⟨vm₁, ha, hpm, hk, hmem, hzero⟩ := mem_create hc
  obtain ⟨hmem₁, hk₁, hn, hz, htot, hcount⟩ := Vm.alloc_eq_some ha
  have hoff : ∀ v ∈ heapPages, ∀ d ≤ 4, frameAt vm pml4 v d ≠ some n :=
    fun v hv d hd hf => (htree.used hv hd hf).2 hz
  have honly : OnlyAt n vm vm' :=
    { kernelPml4 := hk.trans hk₁
      total := by rw [hpm, htot]
      mem := fun t ht => (hmem t ht).trans (congrFun hmem₁ t)
      counter := fun t ht => by rw [hpm, hcount, Function.update_of_ne ht] }
  have hroots : n ∉ roots := fun hm => (h.spare n hm).used hz
  have hpml4 : pml4 ≠ n := fun he => hoff _ kheapEnd_mem 0 (by decide) (he ▸ rfl)
  have hold := h.of_onlyAt honly hoff (.refl roots) hroots
    fun i hlo hhi hp he => (h.ident i hlo hhi hp).1.used (he ▸ hz)
  have hspare : Spare heapPages pml4 n vm' :=
    { off := fun v hv d hd => by
        rw [honly.frameAt_eq hoff hv hd]
        exact hoff v hv d hd
      lt := honly.total ▸ hn
      used := by simp [hpm, hcount] }
  have hupper : ∀ i, 256 ≤ i → vm'.entry n i = vm'.entry pml4 i := by
    intro i hi
    rw [Vm.entry_congr (honly.mem pml4 hpml4), entry_create hc h.kernel hpml4 hi]
  refine ⟨⟨hold.kernel, hold.code, fun i hlo hhi hp =>
    ⟨(hold.ident i hlo hhi hp).1, ?_⟩, ?_, ?_, ?_,
    ?_⟩, honly, hoff⟩
  · rw [List.mem_append, List.mem_singleton, not_or]
    refine ⟨(hold.ident i hlo hhi hp).2, fun he => ?_⟩
    rw [Vm.entry_congr (honly.mem pml4 hpml4)] at hp he
    exact (h.ident i hlo hhi hp).1.used (he ▸ hz)
  · rw [List.nodup_append]
    refine ⟨h.nodup, by simp, fun x hx y hy he => hroots ?_⟩
    rwa [← List.mem_singleton.mp hy, ← he]
  all_goals
    intro r hr
    rcases List.mem_append.mp hr with hr | hr
  · exact hold.spare r hr
  · exact List.mem_singleton.mp hr ▸ hspare
  · exact hold.lower r hr
  · intro i hi
    rw [List.mem_singleton.mp hr, hzero i hi]
    exact present_zero
  · exact hold.upper r hr
  · intro i hlo _
    rw [List.mem_singleton.mp hr]
    exact hupper i hlo

theorem clone_eq_create (h : Mirrored pml4 roots vm) (hr : r ∈ roots)
    (hc : AddrSpace.clone r vm = some (n, vm')) : AddrSpace.create vm = some (n, vm') := by
  obtain ⟨vm₁, hcr, rfl⟩ := clone_eq_some hc
  obtain ⟨vm₀, ha, -, -, hmem, -⟩ := mem_create hcr
  obtain ⟨hmem₀, -, -, hz, -⟩ := Vm.alloc_eq_some ha
  have hne : r ≠ n := fun he => (h.spare r hr).used (he ▸ hz)
  have habsent : ∀ i < 256, present (vm₁.entry r i) = false := by
    intro i hi
    rw [Vm.entry_congr (hmem r hne), Vm.entry_congr (congrFun hmem₀ r)]
    exact h.lower r hr i hi
  rw [hcr, foldl_cloneEntry_of_absent fun i hi => habsent i (List.mem_range.mp hi)]

theorem destroy (h : Mirrored pml4 roots vm) (hr : r ∈ roots) {roots' : List ℕ}
    (hsub : roots'.Sublist roots) (hn : r ∉ roots') (hd : AddrSpace.destroy r vm = some vm') :
    Mirrored pml4 roots' vm' ∧ OnlyAt r vm vm' ∧
      ∀ v ∈ heapPages, ∀ d ≤ 4, frameAt vm pml4 v d ≠ some r := by
  have hspare := h.spare r hr
  have hempty : released vm 4 r = [] := by
    refine List.flatMap_eq_nil_iff.mpr fun i hi => if_neg ?_
    rw [h.lower r hr i (List.mem_range.mp hi)]
    decide
  have hf : vm.free r = some vm' := by
    simpa [destroy_eq, hempty, Vm.free] using hd
  obtain ⟨hmem, hk, -, htot, hcount⟩ := Vm.free_eq_some hf hspare.lt
  have honly : OnlyAt r vm vm' :=
    { kernelPml4 := hk
      total := htot
      mem := fun t _ => congrFun hmem t
      counter := fun t ht => by rw [hcount, Function.update_of_ne ht] }
  exact ⟨h.of_onlyAt honly hspare.off hsub hn
    fun i hlo hhi hp he => (h.ident i hlo hhi hp).2 (he ▸ hr), honly, hspare.off⟩

end Mirrored

theorem inv_withVm {k : Clients} {v : ByteMemory.View} {bs : List Block} (h : k.Inv v bs)
    (ho : OnlyAt n k.heap.vm vm)
    (hoff : ∀ v ∈ heapPages, ∀ d ≤ 4, frameAt k.heap.vm k.heap.pml4 v d ≠ some n) :
    (withVm k vm).Inv v bs where
  repr :=
    { shows :=
        { tree := ho.tree hoff h.repr.shows.tree
          view_eq := by
            rw [← h.repr.shows.view_eq]
            funext a
            unfold Heap.view bytes
            split_ifs with ha
            · rw [withVm, ho.pageMem_eq hoff (page_mem_heapPages ha.1 ha.2)]
            · rfl }
      exact := h.repr.exact
      seg := h.repr.seg
      brk := h.repr.brk
      limit := h.repr.limit
      start := h.repr.start
      last := h.repr.last }
  quiet := h.quiet
  held := h.held
  calls := h.calls

theorem present_of_live {k : Clients} {v : ByteMemory.View} {bs : List Block} (h : k.Inv v bs)
    (hne : k.live ≠ []) : present (k.heap.vm.entry k.heap.pml4 510) = true := by
  obtain ⟨x, hx⟩ := List.exists_mem_of_ne_nil _ hne
  obtain ⟨a, m, -, hmem, hm⟩ := h.held.block x hx
  have hb := placed_bounds hmem
  have hcov : v kheapStart ≠ none := h.repr.covers kheapStart le_rfl (by
    simp only [headerSize] at hm hb
    omega)
  obtain ⟨f, hf⟩ := h.repr.shows.exists_frame hcov
  obtain ⟨t, ht⟩ := exists_frameAt_of_le hf (show 1 ≤ 4 by decide)
  obtain ⟨u, hu, hp, -⟩ := frameAt_succ_eq_some_iff.mp ht
  cases hu
  exact hp

theorem notMem_map_eraseIdx {α β : Type} {l : List α} {f : α → β} {a : ℕ} {x : α}
    (h : (l.map f).Nodup) (hx : l[a]? = some x) : f x ∉ (l.eraseIdx a).map f := by
  intro hm
  obtain ⟨y, hy, he⟩ := List.mem_map.mp hm
  obtain ⟨j, hne, hj⟩ := List.mem_eraseIdx_iff_getElem?.mp hy
  have hmap : (l.map f)[j]? = (l.map f)[a]? := by
    rw [List.getElem?_map, List.getElem?_map, hx, hj, Option.map_some, Option.map_some, he]
  refine hne ((List.getElem?_inj ?_ h).mp hmap)
  rw [List.length_map]
  exact (List.getElem?_eq_some_iff.mp hj).1

namespace Inv

theorem of_clients {k : Clients} {c : Heap.Call} (h : Inv pml4 s)
    (hok : Clients.Steady s.clients c) (hs : s.clients.step c = some k)
    (howns : ∀ x ∈ s.spaces, x.1 ∈ k.live.map Prod.fst) : Inv pml4 ⟨k, s.spaces⟩ := by
  obtain ⟨v, bs, hinv⟩ := h.heap
  obtain ⟨⟨v', bs', hinv'⟩, grow, hapart⟩ := hinv.of_step hok hs
  have hpml4 : s.clients.heap.pml4 = pml4 := h.pml4_eq
  refine ⟨⟨v', bs', hinv'⟩, hapart.pml4.trans hpml4,
    h.mirrored.of_beside (hpml4 ▸ hapart.beside) ?_,
    h.nodup, howns⟩
  intro hne
  obtain ⟨x, hx⟩ := List.exists_mem_of_ne_nil _ (show s.spaces ≠ [] by simpa using hne)
  have hlive : ∀ {l : List (ℕ × ℕ)}, x.1 ∈ l.map Prod.fst → l ≠ [] := by
    rintro l hm rfl
    cases hm
  have hfirst := present_of_live hinv (hlive (h.owns x hx))
  have hfirst' := present_of_live hinv' (hlive (howns x hx))
  rw [hpml4] at hfirst
  rw [hapart.pml4, hpml4] at hfirst'
  exact ⟨hfirst, hfirst'⟩

/-- A step of `kmalloc`. -/
theorem kmalloc {size line function : ℕ} {k : Clients} (h : Inv pml4 s)
    (hsize : size + headerSize < 2 ^ 63)
    (hs : s.clients.step (.kmalloc size line function) = some k) :
    Inv pml4 ⟨k, s.spaces⟩ ∧ ∃ ptr, k.live = s.clients.live ++ [(ptr, size)] ∧
      ptr ∉ s.clients.live.map Prod.fst := by
  obtain ⟨v, bs, hinv⟩ := h.heap
  obtain ⟨⟨_, heap⟩, hm, -⟩ := Option.bind_eq_some_iff.mp hs
  have hok : Clients.Lawful s.clients (.kmalloc size line function) :=
    ⟨hsize, room_of_kmalloc hinv.repr hsize hm⟩
  obtain ⟨ptr, v', bs', hlive, hinv', -⟩ := hinv.kmalloc hok hs
  refine ⟨h.of_clients (c := .kmalloc size line function) hok hs fun x hx => ?_, ptr, hlive,
    fun hmem => ?_⟩
  · rw [hlive, List.map_append]
    exact List.mem_append_left _ (h.owns x hx)
  · have hnodup := hinv'.held.nodup
    rw [hlive, List.map_append, List.nodup_append] at hnodup
    exact hnodup.2.2 ptr hmem ptr (by simp) rfl

theorem kfree {k : Clients} (h : Inv pml4 s) (hok : Clients.Steady s.clients (.kfree i))
    (hfree : ∀ x ∈ s.clients.live[i]?, x.1 ∉ s.spaces.map Prod.fst)
    (hs : s.clients.step (.kfree i) = some k) : Inv pml4 ⟨k, s.spaces⟩ := by
  refine h.of_clients hok hs fun x hx => ?_
  obtain ⟨l, hl, hs⟩ := Option.bind_eq_some_iff.mp hs
  obtain ⟨heap, -, hs⟩ := Option.bind_eq_some_iff.mp hs
  cases hs
  obtain ⟨y, hy, he⟩ := List.mem_map.mp (h.owns x hx)
  obtain ⟨j, hj⟩ := List.getElem?_of_mem hy
  refine List.mem_map.mpr ⟨y, List.mem_eraseIdx_iff_getElem?.mpr ⟨j, fun hji => ?_, hj⟩, he⟩
  subst hji
  rw [hl] at hj
  cases hj
  exact hfree l hl (List.mem_map.mpr ⟨x, hx, he.symm⟩)

theorem new {construct : Vm → Option (ℕ × Vm)} {size line function : ℕ} (h : Inv pml4 s)
    (hsize : size + headerSize < 2 ^ 63)
    (hcreate : ∀ k vm n, Inv pml4 ⟨k, s.spaces⟩ → construct k.heap.vm = some (n, vm) →
      AddrSpace.create k.heap.vm = some (n, vm))
    (hs : s.new construct size line function = some s') : Inv pml4 s' := by
  simp only [Objects.new, Option.bind_eq_bind, Option.bind_eq_some_iff, Option.pure_def,
    Option.some.injEq, Prod.exists] at hs
  obtain ⟨k, hk, ptr, _, hlast, n, vm, hn, rfl⟩ := hs
  obtain ⟨h', ptr', hlive, hfresh⟩ := h.kmalloc hsize hk
  obtain rfl : ptr' = ptr := by
    rw [hlive] at hlast
    simpa using congrArg (Option.map Prod.fst) hlast
  obtain ⟨v, bs, hinv⟩ := h'.heap
  have hpml4 : k.heap.pml4 = pml4 := h'.pml4_eq
  obtain ⟨hmirror, honly, hoff⟩ := h'.mirrored.create (hpml4 ▸ hinv.repr.shows.tree)
    (hcreate k vm n h' hn)
  refine ⟨⟨v, bs, inv_withVm hinv honly (hpml4 ▸ hoff)⟩, hpml4, ?_, ?_, ?_⟩
  · rw [List.map_append]
    exact hmirror
  · rw [List.map_append, List.nodup_append]
    refine ⟨h.nodup, by simp, fun x hx y hy he => hfresh ?_⟩
    obtain ⟨z, hz, rfl⟩ := List.mem_map.mp hx
    obtain rfl : y = ptr' := by simpa using hy
    exact he ▸ h.owns z hz
  · intro x hx
    rcases List.mem_append.mp hx with hx | hx
    · exact h'.owns x hx
    · obtain rfl : x = (ptr', n) := by simpa using hx
      simp [withVm, hlive]

theorem delete {a : ℕ} (h : Inv pml4 s) (hok : Ordinary s (.delete a))
    (hs : s.step (.delete a) = some s') : Inv pml4 s' := by
  simp only [Objects.step, Option.bind_eq_bind, Option.bind_eq_some_iff, Option.pure_def,
    Option.some.injEq] at hs
  obtain ⟨x, hx, vm, hvm, k, hk, rfl⟩ := hs
  have hmem := List.mem_of_getElem? hx
  obtain ⟨v, bs, hinv⟩ := h.heap
  have hpml4 : s.clients.heap.pml4 = pml4 := h.pml4_eq
  obtain ⟨hmirror, honly, hoff⟩ := h.mirrored.destroy (List.mem_map_of_mem hmem)
    ((s.spaces.eraseIdx_sublist a).map Prod.snd) (notMem_map_eraseIdx h.mirrored.nodup hx) hvm
  -- the object is gone, and its block is still there
  have hbetween : Inv pml4 ⟨withVm s.clients vm, s.spaces.eraseIdx a⟩ :=
    ⟨⟨v, bs, inv_withVm hinv honly (hpml4 ▸ hoff)⟩, hpml4, hmirror,
      h.nodup.sublist ((s.spaces.eraseIdx_sublist a).map Prod.fst),
      fun y hy => h.owns y (List.mem_of_mem_eraseIdx hy)⟩
  obtain ⟨l, hl, he⟩ := List.mem_map.mp (h.owns x hmem)
  have hi : s.clients.live.findIdx (fun k => k.1 == x.1) < s.clients.live.length :=
    List.findIdx_lt_length_of_exists ⟨l, hl, by simpa using he⟩
  have hblock : ∀ y ∈ s.clients.live[s.clients.live.findIdx fun k => k.1 == x.1]?, y.1 = x.1 := by
    intro y hy
    simpa using List.findIdx_of_getElem?_eq_some hy
  refine hbetween.kfree ⟨hi, fun y hy hlast => hok x hx ?_⟩ (fun y hy => ?_) hk
  · exact (hblock y hy).symm.trans hlast
  · rw [hblock y hy]
    exact notMem_map_eraseIdx h.nodup hx

theorem step (h : Inv pml4 s) (hok : Ordinary s c) (hs : s.step c = some s') : Inv pml4 s' := by
  cases c with
  | heap c =>
    obtain ⟨k, hk, rfl⟩ := Option.map_eq_some_iff.mp hs
    cases c with
    | kmalloc size line function => exact (h.kmalloc hok hk).1
    | kfree i =>
      exact h.kfree ⟨hok.1, fun x hx => (hok.2 x hx).2⟩ (fun x hx => (hok.2 x hx).1) hk
    | store i offset b =>
      refine h.of_clients (c := .store i offset b) hok hk fun x hx => ?_
      obtain ⟨l, -, hk⟩ := Option.bind_eq_some_iff.mp hk
      obtain ⟨vm, -, hk⟩ := Option.bind_eq_some_iff.mp hk
      cases hk
      exact h.owns x hx
  | create size line function => exact h.new hok (fun _ _ _ _ hc => hc) hs
  | clone a size line function =>
    obtain ⟨x, hx, hs⟩ := Option.bind_eq_some_iff.mp hs
    refine h.new hok (fun k vm n h' hc => h'.mirrored.clone_eq_create ?_ hc) hs
    exact List.mem_map_of_mem (List.mem_of_getElem? hx)
  | delete a => exact h.delete hok hs

theorem of_booted (h : Booted s) : Inv s.kernel s where
  heap := ⟨_, _, h.heap.inv⟩
  pml4_eq := rfl
  mirrored :=
    { kernel := h.kernel
      code := h.code
      ident := fun i hlo hhi hp => ⟨h.ident i hlo hhi hp, by simp [h.spaces]⟩
      nodup := by simp [h.spaces]
      spare := by simp [h.spaces]
      lower := by simp [h.spaces]
      upper := by simp [h.spaces] }
  nodup := by simp [h.spaces]
  owns := by simp [h.spaces]

theorem counter_ne_zero (h : Inv pml4 s) (hlo : 256 ≤ i) (hhi : i < 512)
    (hp : present (s.vm.entry pml4 i) = true) :
    s.vm.pageMap.pagemap (ppn (s.vm.entry pml4 i)) ≠ 0 := by
  obtain ⟨v, bs, hinv⟩ := h.heap
  have htree : Tree heapPages pml4 s.vm := h.pml4_eq ▸ hinv.repr.shows.tree
  rcases Nat.lt_or_ge i 510 with hlt | hge
  · exact (h.mirrored.ident i hlo hlt hp).1.used
  · obtain ⟨page, hpage, rfl⟩ : ∃ page ∈ heapPages, tableIndex 3 page = i := by
      rcases (show i = 510 ∨ i = 511 by omega) with rfl | rfl
      · exact ⟨kheapStart / 4096, page_mem_heapPages le_rfl (by decide), by decide⟩
      · exact ⟨kheapEnd / 4096, kheapEnd_mem, by decide⟩
    exact (htree.used hpage (d := 1) (by decide)
      (frameAt_succ_eq_some_iff.mpr ⟨pml4, rfl, hp, rfl⟩)).2

end Inv

/-- In every run, the upper half of every live address space is that of the kernel, and the tables
it names have not been freed. -/
theorem upper_eq_kernel (s₀ s : Objects) (h₀ : Booted s₀)
    (h : Run.Reachable Objects.step Ordinary s₀ s) :
    ∀ x ∈ s.spaces, ∀ i, 256 ≤ i → i < 512 → s.vm.entry x.2 i = s.vm.entry s.kernel i ∧
      (present (s.vm.entry x.2 i) = true →
        s.vm.pageMap.pagemap (ppn (s.vm.entry x.2 i)) ≠ 0) := by
  have hinv : Inv s₀.kernel s :=
    h.invariant (.of_booted h₀) fun _ _ _ hinv hok hs => hinv.step hok hs
  intro x hx i hlo hhi
  have hupper := hinv.mirrored.upper x.2 (List.mem_map_of_mem hx) i hlo hhi
  rw [hupper, hinv.pml4_eq]
  exact ⟨rfl, hinv.counter_ne_zero hlo hhi⟩

section Example

/-! A machine with 32 frames. The second is the kernel's PML4; the tables below it that `setup`
leaves behind are reduced to one for the identity mapping and two for the code. -/

def bootMem (f i : ℕ) : BitVec 64 :=
  if f = 1 ∧ i = 256 then ofTable 4
  else if f = 1 ∧ i = 511 then ofTable 2
  else if f = 2 ∧ i = 510 then ofTable 3
  else 0

def boot : Objects :=
  ⟨⟨⟨⟨bootMem, ⟨⟨32, 32, 28, 4, fun f => if 1 ≤ f ∧ f ≤ 4 then 1 else 0⟩, by decide⟩, some 1⟩, 1,
    kheapStart, 0, 0, []⟩, []⟩, []⟩

theorem frameAt_boot {v d f : ℕ} (hv : v ∈ heapPages) (hf : frameAt boot.vm 1 v d = some f) :
    d = 0 ∧ f = 1 ∨ d = 1 ∧ f = 2 ∧ prefixAt 1 v = prefixAt 1 (kheapEnd / 4096) := by
  induction d generalizing f with
  | zero => exact Or.inl ⟨rfl, (Option.some.inj hf).symm⟩
  | succ d ih =>
    obtain ⟨t, ht, hp, rfl⟩ := frameAt_succ_eq_some_iff.mp hf
    rcases ih ht with ⟨rfl, rfl⟩ | ⟨rfl, rfl, hq⟩
    · right
      rcases tableIndex_heapPages hv with hi | hi
      · rw [Nat.sub_zero, hi] at hp
        cases hp
      · rw [Nat.sub_zero, hi]
        refine ⟨rfl, rfl, ?_⟩
        rw [mem_heapPages_iff] at hv
        rw [tableIndex_eq] at hi
        simp only [kheapStart, kheapEnd, prefixAt] at *
        omega
    · have hi : tableIndex 2 v ≠ 510 := tableIndex_ne_code hv hq
      have hzero : boot.vm.entry 2 (tableIndex 2 v) = 0 := by
        simp [boot, Objects.vm, Vm.entry, bootMem, hi]
      rw [show 3 - 1 = 2 from rfl, hzero] at hp
      cases hp

theorem booted_boot : Booted boot where
  heap :=
    { shows :=
        { tree := by
            refine ⟨fun v v' d d' f hv hv' _ _ hf hf' => ?_, fun {v d f} hv _ hf => ?_⟩
            · rcases frameAt_boot hv hf with ⟨rfl, rfl⟩ | ⟨rfl, rfl, hq⟩ <;>
                rcases frameAt_boot hv' hf' with ⟨rfl, he⟩ | ⟨rfl, he, hq'⟩
              · refine ⟨rfl, ?_⟩
                simp only [mem_heapPages_iff, kheapStart, kheapEnd, prefixAt] at *
                omega
              · cases he
              · cases he
              · exact ⟨rfl, hq.trans hq'.symm⟩
            · rcases frameAt_boot hv hf with ⟨-, rfl⟩ | ⟨-, rfl, -⟩ <;> decide
          view_eq := by
            funext a
            unfold Heap.view bytes pageMem
            split_ifs with ha
            · cases hf : frameAt boot.vm 1 (a / 4096) 4 with
              | none =>
                rw [show frameAt boot.clients.heap.vm boot.clients.heap.pml4 (a / 4096) 4 = none
                  from hf]
                rfl
              | some f =>
                rcases frameAt_boot (page_mem_heapPages ha.1 ha.2) hf with ⟨h4, -⟩ | ⟨h4, -⟩ <;>
                  cases h4
            · rfl }
      brk := rfl
      start := rfl
      last := rfl
      calls := rfl
      live := rfl }
  spaces := rfl
  kernel := rfl
  code := ⟨2, by decide, 510, by decide, by decide, fun _ => tableIndex_ne_code⟩
  ident i hlo hhi hp := by
    obtain rfl : i = 256 := by
      by_contra hne
      have hzero : boot.vm.entry boot.kernel i = 0 := by
        simp [boot, Objects.vm, Objects.kernel, Vm.entry, bootMem, hne, show i ≠ 511 by omega]
      rw [hzero] at hp
      cases hp
    refine ⟨fun v hv d _ hf => ?_, by decide, by decide⟩
    rcases frameAt_boot hv hf with ⟨-, he⟩ | ⟨-, he, -⟩ <;> exact absurd he (by decide)

/-- Two address spaces, of which the first is deleted, with a large block between them. -/
def calls : List Call :=
  [.create 24 0 0, .heap (.kmalloc 5000 0 0), .clone 0 24 0 0, .heap (.kfree 1), .delete 0]

set_option maxRecDepth 20000 in
theorem upper_eq_kernel_calls : ∃ s x, Run.guardedRun Objects.step Ordinary boot calls = some s ∧
    s.spaces = [x] ∧ ∀ i, 256 ≤ i → i < 512 → s.vm.entry x.2 i = s.vm.entry s.kernel i := by
  have hrun : (Run.guardedRun Objects.step Ordinary boot calls).map (fun s => s.spaces.length) =
      some 1 := by decide_cbv
  obtain ⟨s, hs, hlen⟩ := Option.map_eq_some_iff.mp hrun
  obtain ⟨x, hx⟩ := List.length_eq_one_iff.mp hlen
  refine ⟨s, x, hs, hx, fun i hlo hhi => ?_⟩
  exact (upper_eq_kernel boot s booted_boot (Run.reachable_of_guardedRun hs) x (by simp [hx]) i hlo
    hhi).1

end Example

end Objects

end Koerix
