import Koerix.Heap.Memory

/-! # The kernel heap

The blocks of the heap tile the memory from `KHEAP_START` to the break. Each
starts with a packed header of 41 bytes that links it to its neighbours; null
is 0. `kmalloc` takes the first free block that is large enough and crops it, or
moves the break; `kfree` merges the block with free neighbours and gives a free
end of the heap back. The lock is left out: each call runs as a whole.
An undefined result is a panic or a loop that does not end.
-/

namespace Koerix

open ByteMemory

/-- A call of the address space by `kbrk`, with the state of the page when it is made. -/
structure PageCall where
  maps : Bool
  page : ℕ
  mapped : Bool
  deriving DecidableEq, Repr

/-- The machine, the variables of the heap, and the calls that `kbrk` has made so far. -/
structure Heap where
  vm : Vm
  pml4 : ℕ
  kheapBreak : ℕ
  heapStart : ℕ
  heapLast : ℕ
  calls : List PageCall

namespace Heap

/-- `HEADER_SIZE`, with the debug fields. -/
def headerSize : ℕ := 41

/-- `HEAP_MAGIC`. -/
def heapMagic : ℕ := 0xabcdefab

/-- The fields of a block header: offset and length. -/
inductive Field
  | available
  | magic
  | prev
  | next
  | function
  | line
  | size
  deriving DecidableEq

def Field.offset : Field → ℕ
  | available => 0
  | magic => 1
  | prev => 5
  | next => 13
  | function => 21
  | line => 29
  | size => 33

def Field.length : Field → ℕ
  | available => 1
  | magic | line => 4
  | prev | next | function | size => 8

/-- Read a field of the block at `b`. -/
def get (h : Heap) (b : ℕ) (f : Field) : Option ℕ :=
  load (AddrSpace.bytes h.pml4 h.vm) (b + f.offset) f.length

/-- Write a field of the block at `b`. -/
def set (b : ℕ) (f : Field) (x : ℕ) (h : Heap) : Option Heap :=
  (AddrSpace.store h.pml4 (b + f.offset) f.length x h.vm).map fun vm => { h with vm }

def memset (a n : ℕ) (h : Heap) : Option Heap :=
  (AddrSpace.memset h.pml4 a n h.vm).map fun vm => { h with vm }

def isMapped (h : Heap) (page : ℕ) : Bool := (AddrSpace.frameAt h.vm h.pml4 page 4).isSome

/-- The flags of heap pages: `MAP_NOEXEC | MAP_WRITE`. -/
def heapFlags : MapFlags := ⟨false, true, true, false, false⟩

def mapPage (h : Heap) (page : ℕ) : Option Heap := do
  let (phys, vm) ← h.vm.alloc
  let vm ← AddrSpace.map h.pml4 page phys heapFlags vm
  return { h with vm, calls := h.calls ++ [⟨true, page, h.isMapped page⟩] }

def unmapPage (h : Heap) (page : ℕ) : Option Heap := do
  let vm ← AddrSpace.unmap h.pml4 page h.vm
  return { h with vm, calls := h.calls ++ [⟨false, page, h.isMapped page⟩] }

/-- Move the break by a 64-bit increment, which is negative in two's complement to shrink. -/
def kbrk (increment : ℕ) (h : Heap) : Option (ℕ × Heap) :=
  let origBrk := h.kheapBreak
  let h := { h with kheapBreak := (origBrk + increment) % 2 ^ 64 }
  if h.kheapBreak < origBrk then do
    let firstUnmap := h.kheapBreak / 4096 + if h.kheapBreak % 4096 ≠ 0 then 1 else 0
    let lastUnmap := origBrk / 4096
    let h ← (List.range' firstUnmap (lastUnmap + 1 - firstUnmap)).foldlM unmapPage h
    return (origBrk, h)
  else do
    let firstMap := origBrk / 4096 + if origBrk % 4096 ≠ 0 then 1 else 0
    let lastMap := (h.kheapBreak + 2 ^ 64 - 1) % 2 ^ 64 / 4096
    let h ← (List.range' firstMap (lastMap + 1 - firstMap)).foldlM mapPage h
    return (origBrk, h)

def crop (block newSize : ℕ) (h : Heap) : Option Heap := do
  let excessSize := ((← h.get block .size) + 2 ^ 64 - newSize) % 2 ^ 64
  if excessSize ≤ headerSize then return h
  let originalNext ← h.get block .next
  let h ← h.set block .size newSize
  let h ← h.set block .next ((block + newSize) % 2 ^ 64)
  let h ← h.set (← h.get block .next) .available 1
  let h ← h.set (← h.get block .next) .magic heapMagic
  let h ← h.set (← h.get block .next) .prev block
  let h ← h.set (← h.get block .next) .next originalNext
  let h ← h.set (← h.get block .next) .size excessSize
  let next ← h.get block .next
  let nextNext ← h.get next .next
  if nextNext ≠ 0 then h.set nextNext .prev next
  else return { h with heapLast := next }

/-- The search loop of `kmalloc` from the given entry on: the first free block that is large
enough, if there is one. The fuel bounds the number of blocks. -/
def findFit (h : Heap) (requiredSize : ℕ) : ℕ → ℕ → Option (Option ℕ)
  | 0, _ => none
  | fuel + 1, entry =>
    if entry = 0 then some none
    else do
      if (← h.get entry .magic) ≠ heapMagic then none
      if (← h.get entry .available) ≠ 0 then
        if requiredSize ≤ (← h.get entry .size) then return some entry
      findFit h requiredSize fuel (← h.get entry .next)

/-- More than the number of blocks that fit below the break. -/
def fuel (h : Heap) : ℕ := h.kheapBreak - kheapStart + 1

/-- Take the free block at `entry`. -/
def reuse (entry size line function : ℕ) (h : Heap) : Option (ℕ × Heap) := do
  let h ← h.set entry .available 0
  let h ← h.set entry .function function
  let h ← h.set entry .line line
  let h ← crop entry ((headerSize + size) % 2 ^ 64) h
  let h ← h.memset (entry + headerSize) size
  return (entry + headerSize, h)

/-- Make a block of the memory at `blk`, where the heap ended before. -/
def append (blk size line function : ℕ) (h : Heap) : Option (ℕ × Heap) := do
  let h ← h.set blk .available 0
  let h ← h.set blk .magic heapMagic
  let h ← h.set blk .next 0
  let h ← h.set blk .prev h.heapLast
  let h ← h.set blk .size ((headerSize + size) % 2 ^ 64)
  let h ← h.set blk .function function
  let h ← h.set blk .line line
  let h ← if h.heapLast ≠ 0 then h.set h.heapLast .next blk else some h
  let h := { h with heapLast := blk }
  let h := if h.heapStart = 0 then { h with heapStart := blk } else h
  let h ← h.memset (blk + headerSize) size
  return (blk + headerSize, h)

/-- Add a block at the end of the heap. -/
def extend (size line function : ℕ) (h : Heap) : Option (ℕ × Heap) := do
  let (blk, h) ← h.kbrk ((size + headerSize) % 2 ^ 64)
  if blk = 2 ^ 64 - 1 then return (0, h)
  h.append blk size line function

def kmalloc (size line function : ℕ) (h : Heap) : Option (ℕ × Heap) := do
  match ← h.findFit ((headerSize + size) % 2 ^ 64) h.fuel h.heapStart with
  | some entry => h.reuse entry size line function
  | none => h.extend size line function

def mergeBlocks (first second : ℕ) (h : Heap) : Option Heap := do
  if (← h.get first .magic) ≠ heapMagic then none
  if (← h.get second .magic) ≠ heapMagic then none
  let h ← h.set first .size (((← h.get first .size) + (← h.get second .size)) % 2 ^ 64)
  let h ← h.set first .next (← h.get second .next)
  let next ← h.get second .next
  let h ← if next ≠ 0 then h.set next .prev first else some { h with heapLast := first }
  h.set second .magic 0

/-- Merge the block with the one after it, if that is free. -/
def mergeNext (block : ℕ) (h : Heap) : Option Heap := do
  let next ← h.get block .next
  if next = 0 then return h
  if (← h.get next .available) = 0 then return h
  h.mergeBlocks block next

/-- Merge the block with the one before it, if that is free. -/
def mergePrev (block : ℕ) (h : Heap) : Option Heap := do
  let prev ← h.get block .prev
  if prev = 0 then return h
  if (← h.get prev .available) = 0 then return h
  h.mergeBlocks prev block

/-- Give the last block back. -/
def dropLast (h : Heap) : Option Heap := do
  let h ← h.set h.heapLast .magic 0
  let decrement ← h.get h.heapLast .size
  let prev ← h.get h.heapLast .prev
  let h ← if prev ≠ 0 then h.set prev .next 0 else some { h with heapStart := 0 }
  let h := { h with heapLast := prev }
  let (_, h) ← h.kbrk ((2 ^ 64 - decrement) % 2 ^ 64)
  return h

/-- The loop at the end of `kfree`: give back free blocks at the end of the heap. -/
def shrink : ℕ → Heap → Option Heap
  | 0, _ => none
  | fuel + 1, h =>
    if h.heapLast = 0 then some h
    else do
      if (← h.get h.heapLast .available) = 0 then return h
      shrink fuel (← h.dropLast)

def kfree (ptr : ℕ) (h : Heap) : Option Heap := do
  if ptr = 0 then return h
  if h.heapLast = 0 ∨ h.heapStart = 0 ∨ ptr < h.heapStart ∨ h.heapLast + headerSize < ptr then none
  let tofree := ptr - headerSize
  if (← h.get tofree .magic) ≠ heapMagic then none
  if (← h.get tofree .available) ≠ 0 then none
  let h ← h.set tofree .available 1
  let h ← h.mergeNext tofree
  let h ← h.mergePrev tofree
  h.shrink h.fuel

end Heap

end Koerix
