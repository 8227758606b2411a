import Mathlib.Order.CompletePartialOrder
import Koerix.Heap.Basic
import Koerix.Lib.Run

/-! # User stacks

A process keeps a vector of flags, one for each slot below `USER_BREAK` that
can hold a stack. `allocStack` and `releaseStack` run under a lock, and are
steps of their own here except for a `push_back` that has to reallocate. `fork`
copies the vector without the lock: its constructor reads the size, allocates,
and copies byte by byte, with steps of other threads in between. A step that
has to wait or whose assertion fails is undefined.
-/

namespace Koerix

/-- `USER_BREAK`. -/
def userBreak : ℕ := 0x0000800000000000

/-- `UserStack::getStackSize()`. -/
def stackSize : ℕ := 8 * 1024 * 1024

/-- `USER_BREAK - (UserStack::getStackSize() * i)`: where the stack in slot `i` starts. -/
def stackPtr (i : ℕ) : ℕ := (userBreak + 2 ^ 64 - stackSize * i % 2 ^ 64) % 2 ^ 64

/-- The slot of a stack, as `releaseStack` computes it. -/
def stackSlot (ptr : ℕ) : ℕ := (userBreak + 2 ^ 64 - ptr) % 2 ^ 64 / stackSize

/-- The addresses from `getStackBase()` up to the stack pointer. -/
def stackRegion (ptr : ℕ) : Set ℕ :=
  { a | ∃ j < stackSize, a = (ptr + 2 ^ 64 - stackSize + j) % 2 ^ 64 }

theorem stackSlot_stackPtr {i : ℕ} (hi : i < 2 ^ 40) : stackSlot (stackPtr i) = i := by
  simp only [stackSlot, stackPtr, stackSize, userBreak]
  omega

theorem slot_of_mem_stackRegion {i a : ℕ} (hi : i < 2 ^ 40) (ha : a ∈ stackRegion (stackPtr i)) :
    (userBreak + 2 ^ 64 - 1 - a) % 2 ^ 64 / stackSize = i := by
  obtain ⟨j, hj, rfl⟩ := ha
  simp only [stackPtr, stackSize, userBreak] at *
  omega

theorem disjoint_stackRegion {i j : ℕ} (hi : i < 2 ^ 40) (hj : j < 2 ^ 40) (hne : i ≠ j) :
    Disjoint (stackRegion (stackPtr i)) (stackRegion (stackPtr j)) := by
  rw [Set.disjoint_left]
  intro a ha hb
  rw [← slot_of_mem_stackRegion hi ha, ← slot_of_mem_stackRegion hj hb] at hne
  exact hne rfl

/-- `lib::vector<bool>`; the array is known by its address. -/
structure BoolVector where
  size : ℕ
  capacity : ℕ
  array : ℕ
  deriving DecidableEq

/-- The capacity that `alloc` makes of the one asked for. -/
def allocCapacity (capacity : ℕ) : ℕ := (capacity >>> 4) <<< 4 + 16

structure UserTask (π : Type) where
  process : π
  /-- `m_stack.getStackPtr()` -/
  stack : ℕ
  killed : Bool

/-- A `push_back` between `alloc` and the store of the new item. -/
structure Growth where
  old : ℕ
  /-- the old array has been copied and deleted -/
  copied : Bool
  deriving DecidableEq

/-- How far a thread is in the copy of `m_stackList` that `fork` makes. -/
inductive ForkPc
  /-- the thread does not fork -/
  | out
  /-- `alloc(self.m_size)`, after `m_size(self.m_size)` -/
  | alloc (size : ℕ)
  /-- the argument `self.m_array` of `memcpy` -/
  | load (list : BoolVector)
  /-- `memcpy` at byte `i` -/
  | copy (list : BoolVector) (source i : ℕ)

/-- Processes `π` and their tasks `τ`. -/
structure Stacks (π τ : Type) where
  /-- the bytes of an array -/
  mem : ℕ → ℕ → Bool
  /-- `kmalloc` has handed out the array -/
  used : ℕ → Bool
  /-- `m_stackList` of the processes that there are -/
  stackList : π → Option BoolVector
  /-- the `push_back` under way, with `m_stackListLock` taken -/
  growth : π → Option Growth
  /-- the tasks that have not been deleted -/
  task : τ → Option (UserTask π)
  fork : τ → ForkPc

namespace Stacks

variable {π τ : Type} [DecidableEq π] [DecidableEq τ]

def init : Stacks π τ := ⟨fun _ _ => false, fun _ => false, fun _ => none, fun _ => none,
  fun _ => none, fun _ => .out⟩

/-- Write byte `i` of an array. -/
def setByte (s : Stacks π τ) (array i : ℕ) (b : Bool) : Stacks π τ :=
  { s with mem := Function.update s.mem array (Function.update (s.mem array) i b) }

def setList (s : Stacks π τ) (p : π) (list : BoolVector) : Stacks π τ :=
  { s with stackList := Function.update s.stackList p (some list) }

def setTask (s : Stacks π τ) (t : τ) (task : Option (UserTask π)) : Stacks π τ :=
  { s with task := Function.update s.task t task }

def setFork (s : Stacks π τ) (t : τ) (p : ForkPc) : Stacks π τ :=
  { s with fork := Function.update s.fork t p }

def setGrowth (s : Stacks π τ) (p : π) (g : Option Growth) : Stacks π τ :=
  { s with growth := Function.update s.growth p g }

/-- `new bool[capacity]` at an address that `kmalloc` chooses. The array is cleared, and `kmalloc`
does not return if it is larger than the heap region (`Heap.le_region_of_kmalloc`). -/
def newArray (s : Stacks π τ) (array capacity : ℕ) : Option (Stacks π τ) :=
  if s.used array = false ∧ capacity + Heap.headerSize ≤ Heap.kheapEnd + 1 - Heap.kheapStart then
    some { s with
      mem := Function.update s.mem array fun _ => false
      used := Function.update s.used array true }
  else none

/-- The first slot of the list that is not taken. -/
def freeSlot (s : Stacks π τ) (list : BoolVector) : Option ℕ :=
  (List.range list.size).find? fun i => !s.mem list.array i

/-- `m_array[m_size++] = true`. -/
def push (s : Stacks π τ) (p : π) (list : BoolVector) : Stacks π τ :=
  (s.setByte list.array list.size true).setList p { list with size := list.size + 1 }

/-- `allocStack()`, unless the vector has to grow. -/
def allocStack (s : Stacks π τ) (p : π) : Option (ℕ × Stacks π τ) := do
  let list ← s.stackList p
  match s.freeSlot list with
  | some i => some (stackPtr i, s.setByte list.array i true)
  | none =>
    if list.capacity < list.size + 1 then none
    else some (stackPtr list.size, s.push p list)

/-- `releaseStack()`, with its assertions. -/
def releaseStack (s : Stacks π τ) (p : π) (stack : ℕ) : Option (Stacks π τ) := do
  let list ← s.stackList p
  let i := stackSlot stack
  if ¬ i < list.size then none
  if s.mem list.array i ≠ true then none
  if list.size = i + 1 then return s.setList p { list with size := list.size - 1 }
  return s.setByte list.array i false

/-- What happens next. -/
inductive Event (π τ : Type)
  /-- a process is created, with its first task -/
  | newProcess (p : π) (array : ℕ) (task : τ)
  /-- `addTask`, when the vector need not grow -/
  | addTask (p : π) (task : τ)
  /-- `addTask`: `realloc` has called `alloc` -/
  | grow (p : π) (array : ℕ)
  /-- `memcpy` and `delete` of `realloc` -/
  | growCopy (p : π)
  /-- the end of `push_back`, and of `addTask` -/
  | growPush (p : π) (task : τ)
  /-- `fork()`: `m_size(self.m_size)` -/
  | forkSize (t : τ)
  | forkAlloc (t : τ) (array : ℕ)
  | forkLoad (t : τ)
  | forkCopy (t : τ)
  /-- `fork()`: the process and its task are there -/
  | forkTask (t : τ) (p : π) (task : τ)
  | exit (t : τ)
  /-- `checkForDeadTasks()` deletes the task -/
  | reap (t : τ)
  /-- others write to memory of the heap that is not one of the arrays -/
  | write (array i : ℕ) (b : Bool)

/-- A new task, if the address of its object is free. -/
def insertTask (s : Stacks π τ) (t : τ) (p : π) (stack : ℕ) : Option (Stacks π τ) :=
  match s.task t with
  | some _ => none
  | none => some (s.setTask t (some ⟨p, stack, false⟩))

def step (s : Stacks π τ) : Event π τ → Option (Stacks π τ)
  | .newProcess p array task =>
    match s.stackList p with
    | some _ => none
    | none => do
      let s ← s.newArray array (allocCapacity 0)
      let (stack, s) ← (s.setList p ⟨0, allocCapacity 0, array⟩).allocStack p
      s.insertTask task p stack
  | .addTask p task =>
    match s.growth p with
    | some _ => none
    | none => do
      let (stack, s) ← s.allocStack p
      s.insertTask task p stack
  | .grow p array =>
    match s.growth p, s.stackList p with
    | none, some list =>
      if s.freeSlot list = none ∧ list.capacity < list.size + 1 then do
        let s ← s.newArray array (allocCapacity (list.size + 1))
        return (s.setList p ⟨list.size, allocCapacity (list.size + 1), array⟩).setGrowth p
          (some ⟨list.array, false⟩)
      else none
    | _, _ => none
  | .growCopy p =>
    match s.growth p, s.stackList p with
    | some ⟨old, false⟩, some list =>
      some ({ s with
        mem := Function.update s.mem list.array fun i =>
          if i < list.size then s.mem old i else s.mem list.array i
        used := Function.update s.used old false }.setGrowth p (some ⟨old, true⟩))
    | _, _ => none
  | .growPush p task =>
    match s.growth p, s.stackList p with
    | some ⟨_, true⟩, some list =>
      ((s.push p list).setGrowth p none).insertTask task p (stackPtr list.size)
    | _, _ => none
  | .forkSize t =>
    match s.fork t, s.task t with
    | .out, some ⟨p, _, false⟩ => (s.stackList p).map fun list => s.setFork t (.alloc list.size)
    | _, _ => none
  | .forkAlloc t array =>
    match s.fork t, s.task t with
    | .alloc size, some ⟨p, _, _⟩ => do
      let list ← s.stackList p
      let s ← s.newArray array (allocCapacity list.size)
      return s.setFork t (.load ⟨size, allocCapacity list.size, array⟩)
    | _, _ => none
  | .forkLoad t =>
    match s.fork t, s.task t with
    | .load copy, some ⟨p, _, _⟩ =>
      (s.stackList p).map fun list => s.setFork t (.copy copy list.array 0)
    | _, _ => none
  | .forkCopy t =>
    match s.fork t with
    | .copy list source i =>
      if i < list.size then
        some ((s.setByte list.array i (s.mem source i)).setFork t (.copy list source (i + 1)))
      else none
    | _ => none
  | .forkTask t p task =>
    match s.fork t, s.task t, s.stackList p with
    | .copy list _ i, some forkee, none =>
      if i < list.size then none
      else ((s.setList p list).setFork t .out).insertTask task p forkee.stack
    | _, _, _ => none
  | .exit t =>
    match s.fork t, s.task t with
    | .out, some ⟨p, stack, false⟩ => some (s.setTask t (some ⟨p, stack, true⟩))
    | _, _ => none
  | .reap t =>
    match s.task t with
    | some ⟨p, stack, true⟩ =>
      match s.growth p with
      | some _ => none
      | none => (s.releaseStack p stack).map (·.setTask t none)
    | _ => none
  | .write array i b => if s.used array then none else some (s.setByte array i b)

end Stacks

end Koerix
