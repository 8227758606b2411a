import Koerix.Proc.Stacks

/-! # Testing stack addresses

A page fault at an address below `USER_BREAK` is a fault in a stack if `isValidStackAddr` says
so. It computes a slot from the address in the same way as `releaseStack` does from the end of
a stack. The lowest address of a stack is the end of the one below it, so that there the test
asks for the wrong slot.
-/

namespace Koerix

/-- `UserStack::getStackBase()`. -/
def stackBase (ptr : ℕ) : ℕ := (ptr + 2 ^ 64 - stackSize) % 2 ^ 64

/-- `m_stackList`, and `getStackPtr()` of the stacks that have been allocated and not been
released. -/
structure StackList where
  flags : List Bool
  ptrs : List ℕ

namespace StackList

def empty : StackList := ⟨[], []⟩

/-- `UserProcess::allocStack()`. The vector does not grow beyond the heap. -/
def allocStack (s : StackList) : Option StackList :=
  match s.flags.findIdx? fun taken => !taken with
  | some i => some ⟨s.flags.set i true, stackPtr i :: s.ptrs⟩
  | none =>
    if s.flags.length + 1 + Heap.headerSize ≤ Heap.kheapEnd + 1 - Heap.kheapStart then
      some ⟨s.flags ++ [true], stackPtr s.flags.length :: s.ptrs⟩
    else none

/-- `UserProcess::releaseStack(stack)`, with its assertions. -/
def releaseStack (s : StackList) (ptr : ℕ) : Option StackList :=
  let i := stackSlot ptr
  if s.flags[i]? = some true then
    some ⟨if s.flags.length = i + 1 then s.flags.dropLast else s.flags.set i false,
      s.ptrs.erase ptr⟩
  else none

/-- `UserProcess::isValidStackAddr(addr)`. -/
def isValidStackAddr (s : StackList) (addr : ℕ) : Bool :=
  let i := stackSlot addr
  if s.flags.length ≤ i then false else (s.flags[i]?).getD false

/-- Calls of `allocStack`, and of `releaseStack` for a stack that is there. -/
inductive Call
  | alloc
  | release (ptr : ℕ)

def step (s : StackList) : Call → Option StackList
  | .alloc => s.allocStack
  | .release ptr => if ptr ∈ s.ptrs then s.releaseStack ptr else none

/-- The slot is taken. -/
def Taken (s : StackList) (i : ℕ) : Prop := s.flags[i]? = some true

instance (s : StackList) (i : ℕ) : Decidable (s.Taken i) := inferInstanceAs (Decidable (_ = _))

/-- The flags tell which stacks there are. -/
structure Inv (s : StackList) : Prop where
  length_le : s.flags.length ≤ 2 ^ 40
  nodup : s.ptrs.Nodup
  mem_ptrs : ∀ i, s.Taken i → stackPtr i ∈ s.ptrs
  taken : ∀ ptr ∈ s.ptrs, ∃ i, s.Taken i ∧ ptr = stackPtr i

variable {s s' : StackList} {i j ptr addr : ℕ}

theorem isValidStackAddr_eq : s.isValidStackAddr addr = true ↔ s.Taken (stackSlot addr) := by
  rw [isValidStackAddr, Taken]
  split_ifs with hle
  · simp [List.getElem?_eq_none hle]
  · have hlt : stackSlot addr < s.flags.length := by omega
    simp [List.getElem?_eq_getElem hlt]

theorem Taken.lt (h : s.Taken i) : i < s.flags.length :=
  (List.getElem?_eq_some_iff.mp h).1

namespace Inv

theorem lt (h : Inv s) (hi : s.Taken i) : i < 2 ^ 40 := lt_of_lt_of_le hi.lt h.length_le

theorem mem_ptrs_iff (h : Inv s) (hi : i < 2 ^ 40) : stackPtr i ∈ s.ptrs ↔ s.Taken i := by
  refine ⟨fun hmem => ?_, h.mem_ptrs i⟩
  obtain ⟨j, hj, he⟩ := h.taken _ hmem
  have hij : i = j := by
    rw [← stackSlot_stackPtr hi, he, stackSlot_stackPtr (h.lt hj)]
  exact hij ▸ hj

theorem insert (h : Inv s) (hi : i < 2 ^ 40) (hfree : ¬ s.Taken i) {flags : List Bool}
    (hlen : flags.length ≤ 2 ^ 40)
    (hflags : ∀ j, flags[j]? = some true ↔ j = i ∨ s.flags[j]? = some true) :
    Inv ⟨flags, stackPtr i :: s.ptrs⟩ where
  length_le := hlen
  nodup := List.nodup_cons.mpr ⟨fun hmem => hfree ((h.mem_ptrs_iff hi).mp hmem), h.nodup⟩
  mem_ptrs j hj := by
    rcases (hflags j).mp hj with rfl | hj
    · exact List.mem_cons_self
    · exact List.mem_cons_of_mem _ (h.mem_ptrs j hj)
  taken ptr hptr := by
    rcases List.mem_cons.mp hptr with rfl | hptr
    · exact ⟨i, (hflags i).mpr (Or.inl rfl), rfl⟩
    · obtain ⟨j, hj, rfl⟩ := h.taken ptr hptr
      exact ⟨j, (hflags j).mpr (Or.inr hj), rfl⟩

theorem allocStack (h : Inv s) (hs : s.allocStack = some s') : Inv s' := by
  rw [StackList.allocStack] at hs
  cases hf : s.flags.findIdx? fun taken => !taken with
  | some i =>
    rw [hf] at hs
    cases hs
    obtain ⟨hlt, hi, -⟩ := List.findIdx?_eq_some_iff_getElem.mp hf
    have hi' : s.flags[i]? = some false := by simpa [List.getElem?_eq_getElem hlt] using hi
    refine h.insert (lt_of_lt_of_le hlt h.length_le) (by simp [Taken, hi'])
      (by simpa using h.length_le)
      fun j => ?_
    rcases eq_or_ne j i with rfl | hne
    · simp [List.getElem?_set_self hlt]
    · simp [List.getElem?_set_ne hne.symm, hne]
  | none =>
    rw [hf] at hs
    split_ifs at hs with hcap
    cases hs
    simp only [Heap.headerSize, Heap.kheapEnd, Heap.kheapStart] at hcap
    refine h.insert (i := s.flags.length) (by omega) (by simp [Taken]) (by simp; omega) fun j => ?_
    rcases lt_trichotomy j s.flags.length with hlt | rfl | hgt
    · simp [List.getElem?_append_left hlt, hlt.ne]
    · simp
    · have hnew : (s.flags ++ [true])[j]? = none := by simp; omega
      simp [hnew, List.getElem?_eq_none hgt.le, hgt.ne']

theorem releaseStack (h : Inv s) (hptr : ptr ∈ s.ptrs) (hs : s.releaseStack ptr = some s') :
    Inv s' := by
  obtain ⟨i, hi, rfl⟩ := h.taken ptr hptr
  rw [StackList.releaseStack, stackSlot_stackPtr (h.lt hi)] at hs
  have hi' : s.flags[i]? = some true := hi
  rw [if_pos hi'] at hs
  cases hs
  have hflags : ∀ j, (if s.flags.length = i + 1 then s.flags.dropLast
      else s.flags.set i false)[j]? = some true ↔ j ≠ i ∧ s.flags[j]? = some true := by
    intro j
    split_ifs with hlast
    · rw [List.getElem?_dropLast, hlast, Nat.add_sub_cancel]
      rcases lt_trichotomy j i with hlt | rfl | hgt
      · simp [hlt, hlt.ne]
      · simp
      · simp [hgt.not_gt, List.getElem?_eq_none (show s.flags.length ≤ j by omega)]
    · rcases eq_or_ne j i with rfl | hne
      · simp [List.getElem?_set_self hi.lt]
      · simp [List.getElem?_set_ne hne.symm, hne]
  refine ⟨?_, h.nodup.erase _, fun j hj => ?_, fun ptr hptr' => ?_⟩
  · split_ifs
    · simp only [List.length_dropLast]
      have := h.length_le
      omega
    · simpa using h.length_le
  · obtain ⟨hne, hj⟩ := (hflags j).mp hj
    refine (List.mem_erase_of_ne fun he => hne ?_).mpr (h.mem_ptrs j hj)
    rw [← stackSlot_stackPtr (h.lt hj), he, stackSlot_stackPtr (h.lt hi)]
  · obtain ⟨hne, hmem⟩ := h.nodup.mem_erase_iff.mp hptr'
    obtain ⟨j, hj, rfl⟩ := h.taken ptr hmem
    refine ⟨j, (hflags j).mpr ⟨?_, hj⟩, rfl⟩
    rintro rfl
    exact hne rfl

theorem step (h : Inv s) {c : Call} (hs : s.step c = some s') : Inv s' := by
  cases c with
  | alloc => exact h.allocStack hs
  | release ptr =>
    rw [StackList.step] at hs
    split_ifs at hs with hptr
    exact h.releaseStack hptr hs

end Inv

theorem inv_empty : Inv empty :=
  ⟨by simp [empty], by simp [empty], by simp [Taken, empty], by simp [empty]⟩

theorem inv_of_run {calls : List Call} (h : calls.foldlM step empty = some s) : Inv s :=
  Run.foldlM_invariant h inv_empty fun _ _ _ _ h hs => h.step hs

theorem mem_stack_iff (hi : i < 2 ^ 40) (haddr : addr < userBreak) :
    stackBase (stackPtr i) ≤ addr ∧ addr < stackPtr i ↔ (userBreak - 1 - addr) / stackSize = i := by
  simp only [stackBase, stackPtr, stackSize, userBreak] at *
  omega

theorem stackSlot_of_dvd (haddr : addr < userBreak) (hdvd : stackSize ∣ userBreak - addr) :
    stackSlot addr = (userBreak - 1 - addr) / stackSize + 1 := by
  simp only [stackSlot, stackSize, userBreak] at *
  omega

theorem stackSlot_of_not_dvd (haddr : addr < userBreak) (hdvd : ¬ stackSize ∣ userBreak - addr) :
    stackSlot addr = (userBreak - 1 - addr) / stackSize := by
  simp only [stackSlot, stackSize, userBreak] at *
  omega

/-- The address is in a stack that has been allocated. -/
def InStack (s : StackList) (addr : ℕ) : Prop :=
  ∃ ptr ∈ s.ptrs, stackBase ptr ≤ addr ∧ addr < ptr

theorem inStack_iff (h : Inv s) (haddr : addr < userBreak) :
    s.InStack addr ↔ s.Taken ((userBreak - 1 - addr) / stackSize) := by
  constructor
  · rintro ⟨ptr, hptr, hmem⟩
    obtain ⟨i, hi, rfl⟩ := h.taken ptr hptr
    rw [mem_stack_iff (h.lt hi) haddr] at hmem
    exact hmem ▸ hi
  · intro htaken
    exact ⟨_, h.mem_ptrs _ htaken, (mem_stack_iff (h.lt htaken) haddr).mpr rfl⟩

/-- The test is right about an address that is not the lowest one of a slot, and about the
lowest one if this slot and the one below are both taken or both free. -/
theorem isValidStackAddr_iff_inStack {calls : List Call} (h : calls.foldlM step empty = some s)
    (haddr : addr < userBreak) :
    (s.isValidStackAddr addr = true ↔ s.InStack addr) ↔
      (stackSize ∣ userBreak - addr →
        (s.Taken ((userBreak - addr) / stackSize) ↔
          s.Taken ((userBreak - addr) / stackSize - 1))) := by
  rw [isValidStackAddr_eq, inStack_iff (inv_of_run h) haddr]
  by_cases hdvd : stackSize ∣ userBreak - addr
  · have hslot : stackSlot addr = (userBreak - addr) / stackSize := by
      simp only [stackSlot, stackSize, userBreak] at *
      omega
    have hpred : (userBreak - 1 - addr) / stackSize = (userBreak - addr) / stackSize - 1 := by
      rw [← hslot, stackSlot_of_dvd haddr hdvd, Nat.add_sub_cancel]
    rw [hslot, hpred]
    exact ⟨fun h _ => h, fun h => h hdvd⟩
  · rw [stackSlot_of_not_dvd haddr hdvd]
    exact ⟨fun _ hd => absurd hd hdvd, fun _ => Iff.rfl⟩

/-- Of four stacks the third is released. -/
def threeCalls : List Call := [.alloc, .alloc, .alloc, .alloc, .release (stackPtr 2)]

def threeStacks : StackList where
  flags := [true, true, false, true]
  ptrs := [stackPtr 3, stackPtr 1, stackPtr 0]

/-- The test is right where the first two stacks meet, and above the end of the fourth. -/
theorem isValidStackAddr_iff_inStack_alloc :
    (threeStacks.isValidStackAddr (userBreak - stackSize) = true ↔
        threeStacks.InStack (userBreak - stackSize)) ∧
      (threeStacks.isValidStackAddr (userBreak - 3 * stackSize + 8) = true ↔
        threeStacks.InStack (userBreak - 3 * stackSize + 8)) := by
  have h : threeCalls.foldlM step empty = some threeStacks := rfl
  exact ⟨(isValidStackAddr_iff_inStack h (by decide)).mpr (by decide),
    (isValidStackAddr_iff_inStack h (by decide)).mpr (by decide)⟩

/-- The lowest address of the only stack. -/
theorem not_isValidStackAddr_stackBase : [Call.alloc].foldlM step empty =
      some ⟨[true], [stackPtr 0]⟩ ∧ stackBase (stackPtr 0) < userBreak ∧
    ¬ ((⟨[true], [stackPtr 0]⟩ : StackList).isValidStackAddr (stackBase (stackPtr 0)) = true ↔
      (⟨[true], [stackPtr 0]⟩ : StackList).InStack (stackBase (stackPtr 0))) := by
  refine ⟨rfl, by decide, fun h => ?_⟩
  have hin : (⟨[true], [stackPtr 0]⟩ : StackList).InStack (stackBase (stackPtr 0)) :=
    ⟨stackPtr 0, by simp, le_rfl, by decide⟩
  exact absurd (h.mpr hin) (by decide)

end StackList

end Koerix
