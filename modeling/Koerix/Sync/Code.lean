import Koerix.Lib.Run
import Koerix.Queue.Buffer
import Koerix.Sync.Cpu

/-! # Locks that use the heap

A contended `Mutex` allocates and frees list items, the heap is protected by a
spinlock, and it grows and shrinks through the mutex of the kernel address space.
Tasks have what is left of their code as a list of instructions, and a call puts
the code of the callee in front of it. A failed assertion is an undefined step.
-/

namespace Koerix

/-- The mutexes: that of `AddrSpace::kernel()`, the buffer locks of the queues `κ`, and others. -/
inductive MutexId (μ κ : Type)
  | kernelSpace
  | queue (q : κ)
  | other (m : μ)
  deriving DecidableEq

/-- The spinlocks: `s_heapMutex`, that of the `PageMap`, and `m_waitingTasksLock` of a mutex. -/
inductive SpinId (μ κ : Type)
  | heap
  | pageMap
  | waiting (m : MutexId μ κ)
  deriving DecidableEq

/-- One step of the code. -/
inductive Instr (τ μ κ : Type)
  /-- `Spinlock::lock`, up to the exchange that succeeds -/
  | spin (x : SpinId μ κ)
  /-- `Spinlock::unlock` -/
  | unspin (x : SpinId μ κ)
  /-- `while (xchg(1, &m_lock))` of `Mutex::lock` -/
  | acquire (m : MutexId μ κ)
  /-- `m_heldBy = currentTask` -/
  | setHolder (m : MutexId μ κ)
  /-- the assertions of `Mutex::unlock` -/
  | checkHolder (m : MutexId μ κ)
  /-- `m_heldBy = nullptr` -/
  | clearHolder (m : MutexId μ κ)
  /-- `m_lock = 0` -/
  | clearLock (m : MutexId μ κ)
  /-- a list item for the current task in `m_waitingTasks` -/
  | pushWaiting (m : MutexId μ κ)
  /-- `if (m_waitingTasks.size() > 0)` of `Mutex::unlock` -/
  | popWaiting (m : MutexId μ κ)
  /-- `Task::resume` -/
  | resume (task : τ)
  /-- `s_schedEnable = false` -/
  | schedOff
  /-- `Task::sleep` with the scheduler off -/
  | sleep
  /-- `s_schedEnable = true` -/
  | schedOn
  /-- `sched::yield()` -/
  | yield
  /-- `kmalloc` or `kfree` with the lock, where the first may let the heap grow and the second may
  let it shrink -/
  | heap (grows : Bool)
  /-- the body of `AddrSpace::map` or `AddrSpace::unmap` -/
  | map (grows : Bool)
  /-- `if (m_available == 0)` of `IQueue::read` -/
  | test (q : κ) (len : ℕ)
  /-- `m_readSubscribers.push_back(sched::currentTask(), mem)` -/
  | subscribe (q : κ)
  /-- the loop of `IQueue::read` -/
  | read (q : κ) (len : ℕ)
  /-- the loop of `IQueue::write` -/
  | write (q : κ) (buffer : List UInt8)
  /-- the loop of `wakeupSubscribers` -/
  | wakeup (q : κ)

namespace Instr

variable {τ μ κ : Type}

/-- `kmalloc` if `grows`, else `kfree`. -/
def useHeap (grows : Bool) : List (Instr τ μ κ) := [spin .heap, heap grows, unspin .heap]

/-- `PageMap::alloc`. -/
def allocPage : List (Instr τ μ κ) := [spin .pageMap, unspin .pageMap]

/-- `Mutex::lock`. -/
def lock (m : MutexId μ κ) : List (Instr τ μ κ) := [acquire m]

/-- `Mutex::unlock`. -/
def unlock (m : MutexId μ κ) : List (Instr τ μ κ) :=
  [checkHolder m, clearHolder m, clearLock m, spin (.waiting m), popWaiting m, unspin (.waiting m)]

/-- `Task::sleepAndUnlock`, with the code of the virtual `unlock()`. -/
def sleepAndUnlock (unlock : List (Instr τ μ κ)) : List (Instr τ μ κ) :=
  [schedOff, sleep] ++ unlock ++ [schedOn, yield]

/-- The body of the loop in `Mutex::lock`, and its next iteration. -/
def wait (m : MutexId μ κ) : List (Instr τ μ κ) :=
  spin (.waiting m) :: useHeap true ++ pushWaiting m :: sleepAndUnlock [unspin (.waiting m)] ++
    [acquire m]

/-- One iteration of the loops in `kbrk`. -/
def page (grows : Bool) : List (Instr τ μ κ) :=
  (if grows then allocPage else []) ++ lock .kernelSpace ++ [map grows] ++ unlock .kernelSpace

/-- `IQueue::read` of a `Queue`, from `if (m_available == 0)` on. -/
def readQueue (q : κ) (len : ℕ) : List (Instr τ μ κ) :=
  test q len :: lock (.queue q) ++ [read q len] ++ unlock (.queue q)

/-- The branch of `IQueue::read` for an empty queue. -/
def waitQueue (q : κ) : List (Instr τ μ κ) :=
  useHeap true ++ lock (.queue q) ++ [subscribe q] ++ sleepAndUnlock (unlock (.queue q))

/-- `IQueue::write` of a `Queue`. -/
def writeQueue (q : κ) (buffer : List UInt8) : List (Instr τ μ κ) :=
  lock (.queue q) ++ [write q buffer, wakeup q] ++ unlock (.queue q)

end Instr

/-- The members of a mutex, without its spinlock. -/
structure MutexWord (τ : Type) where
  lock : Bool
  heldBy : Option τ
  waitingTasks : List τ

/-- The spinlocks with the tasks that have them, the mutexes, the queues and the tasks with the
code that is left. -/
structure Locking (τ μ κ : Type) where
  spin : SpinId μ κ → Option τ
  mutex : MutexId μ κ → MutexWord τ
  queue : κ → IQueue
  readSubscribers : κ → List τ
  cpu : Cpu τ (List (Instr τ μ κ))

namespace Locking

open Instr

variable {τ μ κ : Type} [DecidableEq τ] [DecidableEq μ] [DecidableEq κ]

def init (buffer : ℕ → UInt8) (current : τ) : Locking τ μ κ where
  spin _ := none
  mutex _ := ⟨false, none, []⟩
  queue _ := IQueue.init buffer
  readSubscribers _ := []
  cpu := Cpu.init current []

/-- The code that the current task has left. -/
def code (s : Locking τ μ κ) : List (Instr τ μ κ) := s.cpu.pc s.cpu.current

def goto (s : Locking τ μ κ) (c : List (Instr τ μ κ)) : Locking τ μ κ :=
  { s with cpu := s.cpu.goto c }

def setSpin (s : Locking τ μ κ) (x : SpinId μ κ) (t : Option τ) : Locking τ μ κ :=
  { s with spin := Function.update s.spin x t }

def setMutex (s : Locking τ μ κ) (m : MutexId μ κ) (w : MutexWord τ) : Locking τ μ κ :=
  { s with mutex := Function.update s.mutex m w }

/-- `Task::resume`. -/
def wake (s : Locking τ μ κ) (task : τ) : Option (Locking τ μ κ) :=
  if s.cpu.state task = .sleeping ∧ s.cpu.current ≠ task then
    some { s with cpu := s.cpu.setState task .running }
  else none

/-- The current task executes an instruction and goes on with `c`. The heap changes by `n` pages,
or the tables of a page take `n` frames. -/
@[simp] def execInstr (s : Locking τ μ κ) (n : ℕ) (c : List (Instr τ μ κ)) :
    Instr τ μ κ → Option (Locking τ μ κ)
  | .spin x =>
    some (match s.spin x with
      | some _ => s
      | none => (s.setSpin x (some s.cpu.current)).goto c)
  | .unspin x => if (s.spin x).isSome then some ((s.setSpin x none).goto c) else none
  | .acquire m =>
    some (if (s.mutex m).lock then s.goto (wait m ++ c)
      else (s.setMutex m { s.mutex m with lock := true }).goto (setHolder m :: c))
  | .setHolder m =>
    some ((s.setMutex m { s.mutex m with heldBy := some s.cpu.current }).goto c)
  | .checkHolder m =>
    if (s.mutex m).lock = true ∧ (s.mutex m).heldBy = some s.cpu.current then some (s.goto c)
    else none
  | .clearHolder m => some ((s.setMutex m { s.mutex m with heldBy := none }).goto c)
  | .clearLock m => some ((s.setMutex m { s.mutex m with lock := false }).goto c)
  | .pushWaiting m =>
    let tasks := (s.mutex m).waitingTasks ++ [s.cpu.current]
    some ((s.setMutex m { s.mutex m with waitingTasks := tasks }).goto c)
  | .popWaiting m =>
    match (s.mutex m).waitingTasks with
    | [] => some (s.goto c)
    | task :: tasks =>
      some ((s.setMutex m { s.mutex m with waitingTasks := tasks }).goto
        (useHeap false ++ resume task :: c))
  | .resume task => (s.wake task).map (·.goto c)
  | .schedOff => some ({ s with cpu := { s.cpu with schedEnable := false } }.goto c)
  | .sleep =>
    if s.cpu.state s.cpu.current = .running then
      some ({ s with cpu := s.cpu.setState s.cpu.current .sleeping }.goto c)
    else none
  | .schedOn => some ({ s with cpu := { s.cpu with schedEnable := true } }.goto c)
  | .heap grows => some (s.goto ((List.replicate n (page grows)).flatten ++ c))
  | .map grows =>
    some (s.goto ((if grows then (List.replicate n allocPage).flatten else []) ++ c))
  | .test q _ =>
    some (s.goto (if (s.queue q).available = 0 then waitQueue q ++ c else c))
  | .subscribe q =>
    let tasks := s.readSubscribers q ++ [s.cpu.current]
    some ({ s with readSubscribers := Function.update s.readSubscribers q tasks }.goto c)
  | .read q len =>
    ((s.queue q).readLoop len).map fun (_, b) =>
      { s with queue := Function.update s.queue q b }.goto c
  | .write q buffer =>
    (buffer.foldlM IQueue.writeByte (s.queue q)).map fun b =>
      { s with queue := Function.update s.queue q b }.goto c
  | .wakeup q =>
    match s.readSubscribers q with
    | [] => some (s.goto c)
    | task :: tasks =>
      some ({ s with readSubscribers := Function.update s.readSubscribers q tasks }.goto
        (useHeap false ++ resume task :: wakeup q :: c))
  | .yield => none

/-- The functions that tasks call. -/
inductive Call (μ κ : Type)
  | kmalloc
  | kfree
  | lock (m : μ)
  | unlock (m : μ)
  | read (q : κ) (len : ℕ)
  | write (q : κ) (buffer : List UInt8)

def Call.code : Call μ κ → List (Instr τ μ κ)
  | .kmalloc => useHeap true
  | .kfree => useHeap false
  | .lock m => Instr.lock (.other m)
  | .unlock m => Instr.unlock (.other m)
  | .read q len => readQueue q len
  | .write q buffer => writeQueue q buffer

/-- What happens next on the CPU. -/
inductive Event (τ μ κ : Type)
  /-- the current task calls a function -/
  | call (c : Call μ κ)
  /-- the current task executes an instruction -/
  | exec (n : ℕ)
  /-- the current task yields, and the scheduler picks a task if it is enabled -/
  | yield (next : τ)
  /-- the timer interrupts the current task, or it yields in `Spinlock::lock`, and the scheduler
  picks a task -/
  | preempt (next : τ)

def step (s : Locking τ μ κ) : Event τ μ κ → Option (Locking τ μ κ)
  | .call c => if s.code = [] then some (s.goto c.code) else none
  | .exec n =>
    match s.code with
    | [] => none
    | i :: c => s.execInstr n c i
  | .yield next =>
    match s.code with
    | .yield :: c =>
      if s.cpu.schedEnable then
        if s.cpu.schedulable next then
          some { s with cpu := { s.cpu.goto c with current := next } }
        else none
      else if next = s.cpu.current then some (s.goto c) else none
    | _ => none
  | .preempt next =>
    if s.cpu.schedulable next then some { s with cpu := { s.cpu with current := next } } else none

end Locking

end Koerix
