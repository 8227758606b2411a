import Koerix.AddrSpace.Entry
import Koerix.PageMap.Basic

/-! # Address spaces

The x86_64 address space operations on physical memory. An address space is
its PML4 frame number; memory is read and written by frame and 64-bit word
through the identity mapping, so page tables and payload pages share it. The
object locks are left out: each operation runs as a whole. An undefined
result is a panic (no free frame, a double free, or mapping a mapped page).
-/

namespace Koerix

open GenericPagingTable

/-- Physical memory, the frame counters, and the kernel's PML4 once `setup` has run. -/
structure Vm where
  mem : ℕ → ℕ → BitVec 64
  pageMap : PageMap
  kernelPml4 : Option ℕ

namespace Vm

def entry (s : Vm) (table i : ℕ) : GenericPagingTable := s.mem table i

def setEntry (s : Vm) (table i : ℕ) (e : GenericPagingTable) : Vm :=
  { s with mem := Function.update s.mem table (Function.update (s.mem table) i e) }

/-- Overwrite a whole frame: `memset` and `memcpy` of a page. -/
def setFrame (s : Vm) (f : ℕ) (words : ℕ → BitVec 64) : Vm :=
  { s with mem := Function.update s.mem f words }

def alloc (s : Vm) : Option (ℕ × Vm) :=
  s.pageMap.alloc.map fun (f, m) => (f, { s with pageMap := m })

def addRef (s : Vm) (ppn : ℕ) : Vm := { s with pageMap := s.pageMap.addRef ppn }

def free (s : Vm) (ppn : ℕ) : Option Vm :=
  (s.pageMap.free ppn).map fun m => { s with pageMap := m }

variable {s s' : Vm} {t t' i j f n : ℕ} {e : GenericPagingTable} {words : ℕ → BitVec 64}

@[simp] theorem entry_setEntry_self : (s.setEntry t i e).entry t i = e := by
  simp [entry, setEntry]

theorem entry_setEntry_of_ne (h : t' ≠ t ∨ j ≠ i) :
    (s.setEntry t i e).entry t' j = s.entry t' j := by
  rcases eq_or_ne t' t with rfl | ht
  · have hj : j ≠ i := by tauto
    simp [entry, setEntry, hj]
  · simp [entry, setEntry, ht]

theorem entry_congr (h : s'.mem t = s.mem t) : s'.entry t i = s.entry t i := congrFun h i

theorem mem_setEntry_of_ne (h : f ≠ t) : (s.setEntry t i e).mem f = s.mem f := by
  simp [setEntry, h]

@[simp] theorem pageMap_setEntry : (s.setEntry t i e).pageMap = s.pageMap := rfl

@[simp] theorem mem_setFrame_self : (s.setFrame f words).mem f = words := by simp [setFrame]

theorem mem_setFrame_of_ne (h : n ≠ f) : (s.setFrame f words).mem n = s.mem n := by
  simp [setFrame, h]

theorem entry_setFrame_of_ne (h : t ≠ f) : (s.setFrame f words).entry t i = s.entry t i := by
  simp [entry, mem_setFrame_of_ne h]

@[simp] theorem pageMap_setFrame : (s.setFrame f words).pageMap = s.pageMap := rfl

@[simp] theorem mem_addRef : (s.addRef f).mem = s.mem := rfl

@[simp] theorem pageMap_addRef : (s.addRef f).pageMap = s.pageMap.addRef f := rfl

theorem alloc_eq_some (h : s.alloc = some (n, s')) :
    s'.mem = s.mem ∧ s'.kernelPml4 = s.kernelPml4 ∧ n < s.pageMap.totalPages ∧
      s.pageMap.pagemap n = 0 ∧ s'.pageMap.totalPages = s.pageMap.totalPages ∧
      s'.pageMap.pagemap = Function.update s.pageMap.pagemap n 1 := by
  simp only [alloc, Option.map_eq_some_iff, Prod.exists, Prod.mk.injEq] at h
  obtain ⟨f, m, ha, rfl, rfl⟩ := h
  obtain ⟨hn, hz, ht, hp⟩ := PageMap.alloc_eq_some ha
  exact ⟨rfl, rfl, hn, hz, ht, hp⟩

theorem free_frame (h : s.free f = some s') :
    s'.mem = s.mem ∧ s'.kernelPml4 = s.kernelPml4 ∧
      s'.pageMap.totalPages = s.pageMap.totalPages := by
  simp only [free, Option.map_eq_some_iff] at h
  obtain ⟨m, hm, rfl⟩ := h
  exact ⟨rfl, rfl, PageMap.free_totalPages hm⟩

theorem free_eq_some (h : s.free f = some s') (hf : f < s.pageMap.totalPages) :
    s'.mem = s.mem ∧ s'.kernelPml4 = s.kernelPml4 ∧ s.pageMap.pagemap f ≠ 0 ∧
      s'.pageMap.totalPages = s.pageMap.totalPages ∧
      s'.pageMap.pagemap = Function.update s.pageMap.pagemap f (s.pageMap.pagemap f - 1) := by
  simp only [free, Option.map_eq_some_iff] at h
  obtain ⟨m, hm, rfl⟩ := h
  obtain ⟨hz, ht, hp⟩ := PageMap.free_eq_some hm hf
  exact ⟨rfl, rfl, hz, ht, hp⟩

end Vm

/-- Index into the table of the given level (3 is the PML4, 0 the page table). -/
def tableIndex (level virt : ℕ) : ℕ := (virt >>> (9 * level)) &&& 0x1ff

/-- Entries of a table that belong to user space: the lower half of a PML4, else all. -/
def entryCount (level : ℕ) : ℕ := if level = 3 then 256 else 512

namespace AddrSpace

/-- Copy the upper half of the kernel's PML4 once the kernel address space exists. -/
def updateKernelMappings (s : Vm) (pml4 : ℕ) : Vm :=
  match s.kernelPml4 with
  | none => s
  | some k => s.setFrame pml4 fun i => if 256 ≤ i then s.mem k i else s.mem pml4 i

/-- The constructor: a fresh, cleared PML4 with the kernel mappings. -/
def create (s : Vm) : Option (ℕ × Vm) := do
  let (pml4, s) ← s.alloc
  return (pml4, updateKernelMappings (s.setFrame pml4 fun _ => 0) pml4)

/-- One iteration of the loop in `clone`. -/
def cloneEntry (pml4Old pml4New : ℕ) (s : Vm) (i : ℕ) : Vm :=
  if present (s.entry pml4Old i) then
    let s := s.setEntry pml4Old i (demote (s.entry pml4Old i))
    let s := s.setEntry pml4New i (s.entry pml4Old i)
    s.addRef (ppn (s.entry pml4Old i))
  else s

def clone (pml4 : ℕ) (s : Vm) : Option (ℕ × Vm) := do
  let (forked, s) ← create s
  return (forked, (List.range 256).foldl (cloneEntry pml4 forked) s)

/-- The loop of `map` from the given level down, in the given table. -/
def mapFrom (virt phys : ℕ) (flags : MapFlags) : ℕ → ℕ → Vm → Option Vm
  | 0, table, s =>
    let i := tableIndex 0 virt
    if present (s.entry table i) then none
    else some (s.setEntry table i (ofPage phys flags))
  | level + 1, table, s =>
    let i := tableIndex (level + 1) virt
    if present (s.entry table i) then
      mapFrom virt phys flags level (ppn (s.entry table i)) s
    else do
      let (newTable, s) ← s.alloc
      let s := s.setFrame newTable fun _ => 0
      let s := s.setEntry table i (ofTable newTable)
      mapFrom virt phys flags level (ppn (s.entry table i)) s

def map (pml4 virt phys : ℕ) (flags : MapFlags) (s : Vm) : Option Vm :=
  mapFrom virt phys flags 3 pml4 s

/-- One iteration of the table copy in `triggerCow`. -/
def copyEntry (oldTable newTable : ℕ) (s : Vm) (i : ℕ) : Vm :=
  if present (s.entry oldTable i) then
    let s :=
      if shared (s.entry oldTable i) then s
      else
        let s := s.setEntry oldTable i (demote (s.entry oldTable i))
        s.addRef (ppn (s.entry oldTable i))
    s.setEntry newTable i (s.entry oldTable i)
  else s.setEntry newTable i (setPresent (s.entry newTable i) false)

/-- Give the entry at `table[i]` its own copy of the frame it shares with others. -/
def unshare (level table i : ℕ) (s : Vm) : Option Vm := do
  let old := ppn (s.entry table i)
  let (newTable, s) ← s.alloc
  let s :=
    if level = 0 then s.setFrame newTable (s.mem old)
    else (List.range 512).foldl (copyEntry old newTable) s
  let s ← s.free (ppn (s.entry table i))
  return s.setEntry table i (relink (s.entry table i) newTable)

/-- What `triggerCow` does to a present entry before it descends. -/
def claimEntry (level table i : ℕ) (s : Vm) : Option Vm :=
  let e := s.entry table i
  if 1 < s.pageMap.getRefs (ppn e) then unshare level table i s
  else if !write e && cowWasWritable e then some (s.setEntry table i (setWrite e true))
  else some s

/-- The loop of `triggerCow` from the given level down, in the given table. -/
def triggerCowFrom (virt : ℕ) : ℕ → ℕ → Vm → Option (Bool × Vm)
  | level, table, s =>
    let i := tableIndex level virt
    let e := s.entry table i
    if !present e then some (false, s)
    else if level = 0 && !write e && !cowWasWritable e then some (false, s)
    else do
      let s ← claimEntry level table i s
      match level with
      | 0 => return (true, s)
      | level + 1 => triggerCowFrom virt level (ppn (s.entry table i)) s

def triggerCow (pml4 virt : ℕ) (s : Vm) : Option (Bool × Vm) := triggerCowFrom virt 3 pml4 s

/-- The nested loops of the destructor: free every entry below the given table. -/
def releaseTable (s : Vm) : ℕ → ℕ → PageMap → Option PageMap
  | 0, table, m =>
    (List.range 512).foldlM (fun m i =>
      if present (s.entry table i) then m.free (ppn (s.entry table i)) else some m) m
  | level + 1, table, m =>
    (List.range (entryCount (level + 1))).foldlM (fun m i =>
      if present (s.entry table i) then do
        let m ← releaseTable s level (ppn (s.entry table i)) m
        m.free (ppn (s.entry table i))
      else some m) m

/-- The destructor. -/
def destroy (pml4 : ℕ) (s : Vm) : Option Vm := do
  let m ← releaseTable s 3 pml4 s.pageMap
  let m ← m.free pml4
  return { s with pageMap := m }

/-- The processor's walk: the entries on the path of `virt` from the given level down. -/
def walkFrom (s : Vm) (virt : ℕ) : ℕ → ℕ → Option (List GenericPagingTable)
  | 0, table =>
    let e := s.entry table (tableIndex 0 virt)
    if present e then some [e] else none
  | level + 1, table =>
    let e := s.entry table (tableIndex (level + 1) virt)
    if present e then (walkFrom s virt level (ppn e)).map (e :: ·) else none

def walk (s : Vm) (pml4 virt : ℕ) : Option (List GenericPagingTable) := walkFrom s virt 3 pml4

/-- The frame and the effective permissions of a mapped page. -/
structure Translation where
  frame : ℕ
  write : Bool
  user : Bool
  noExec : Bool
  cacheDisable : Bool
  deriving DecidableEq, Repr

def translationOf (path : List GenericPagingTable) : Translation where
  frame := ppn (path.getLastD 0)
  write := path.all write
  user := path.all user
  noExec := path.any noExec
  cacheDisable := cacheDisable (path.getLastD 0)

def translate (s : Vm) (pml4 virt : ℕ) : Option Translation :=
  (walk s pml4 virt).map translationOf

end AddrSpace

end Koerix
