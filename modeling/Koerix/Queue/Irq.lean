import Koerix.Lib.Run
import Koerix.Queue.Buffer
import Koerix.Sync.Cpu
import Mathlib.Data.Fintype.Basic

/-! # Device interrupts and the queue

Tasks read from an `IrqContextQueue` and use the heap, and a device interrupt
writes to the queue from a handler on top of the current task. The buffer lock
switches the interrupts off; until it has done so, a task may be interrupted
between any two of its statements. A handler that waits for the heap yields, and
the task below it is switched out with its handler. A failed assertion is an
undefined step.
-/

namespace Koerix

/-- Why a task calls `kmalloc` or `kfree`. -/
inductive HeapUse
  /-- the list item that `read` allocates -/
  | read (len : ℕ)
  | other
  deriving DecidableEq

/-- Why a task takes the buffer lock. -/
inductive LockUse
  /-- to subscribe -/
  | push (len : ℕ)
  /-- for the loop of `read` -/
  | loop (len : ℕ)
  deriving DecidableEq

/-- What a task does next. -/
inductive IrqPc
  /-- the task uses neither the queue nor the heap -/
  | out
  /-- `s_heapMutex.lock()`: the exchange, and the yield when it fails -/
  | heapXchg (use : HeapUse)
  | heapYield (use : HeapUse)
  /-- `kmalloc` or `kfree` with the lock, up to `s_heapMutex.unlock()` -/
  | heapHold (use : HeapUse)
  /-- `if (m_available == 0)` -/
  | readTest (len : ℕ)
  /-- `m_bufferLock.lock()`: `m_irqsWereEnabled = irqEnabled()` -/
  | readLock (len : ℕ)
  /-- the rest of `lock()`: `if (m_irqsWereEnabled)`, `cli()` and `m_locked = true` -/
  | lockTest (use : LockUse)
  | lockCli (use : LockUse)
  | lockSet (use : LockUse)
  /-- `m_readSubscribers.push_back(sched::currentTask(), mem)` -/
  | readPush (len : ℕ)
  /-- `sleepAndUnlock`: `s_schedEnable = false` -/
  | readDisable (len : ℕ)
  /-- `sleep()` -/
  | readSleep (len : ℕ)
  /-- `lock->unlock()`: `m_locked = false`, and `sti()` if the interrupts were enabled -/
  | readRelease (len : ℕ)
  | readReleased (len : ℕ)
  /-- `s_schedEnable = true` -/
  | readEnable (len : ℕ)
  /-- `sched::yield()` -/
  | readYield (len : ℕ)
  /-- `ScopedLock smtx { m_bufferLock }` of `read`: `m_irqsWereEnabled = irqEnabled()` -/
  | readScope (len : ℕ)
  /-- the loop of `read` with room for `len` more bytes -/
  | readLoop (len : ℕ)
  /-- the end of the scope in `read`: the statements of `unlock()` -/
  | readUnlock
  | readUnlocked
  deriving DecidableEq

/-- What the handler on top of a task does next. -/
inductive HandlerPc (τ : Type)
  /-- `ScopedLock smtx { m_bufferLock }` of `write` -/
  | lock (buffer : List UInt8)
  /-- the loop of `write` with these bytes left -/
  | write (buffer : List UInt8)
  /-- `wakeupSubscribers`: the first half of `m_readSubscribers.pop_front()`, if the list is not
  empty -/
  | pop
  /-- `kfree` of the list item of `task`: the exchange, and the yield when it fails -/
  | heapXchg (task : τ)
  | heapYield (task : τ)
  | heapHold (task : τ)
  /-- `task->resume()` -/
  | resume (task : τ)
  /-- the end of the scope in `write`, and the return from the interrupt -/
  | unlock
  deriving DecidableEq

/-- The queue with its lock, the heap lock and the tasks. -/
structure IrqQueue (τ : Type) where
  queue : IQueue
  /-- `m_locked` and `m_irqsWereEnabled` of `m_bufferLock` -/
  locked : Bool
  irqsWereEnabled : Bool
  readSubscribers : List τ
  /-- `m_lock` of `s_heapMutex` -/
  heapMutex : Bool
  /-- the interrupt flag with which a task goes on -/
  irqs : τ → Bool
  handler : τ → Option (HandlerPc τ)
  cpu : Cpu τ IrqPc

namespace IrqQueue

variable {τ : Type} [DecidableEq τ]

def init (buffer : ℕ → UInt8) (current : τ) : IrqQueue τ where
  queue := IQueue.init buffer
  locked := false
  irqsWereEnabled := false
  readSubscribers := []
  heapMutex := false
  irqs _ := true
  handler _ := none
  cpu := Cpu.init current .out

def goto (s : IrqQueue τ) (p : IrqPc) : IrqQueue τ := { s with cpu := s.cpu.goto p }

/-- The handler on top of the current task goes on, or returns. -/
def setHandler (s : IrqQueue τ) (h : Option (HandlerPc τ)) : IrqQueue τ :=
  { s with handler := Function.update s.handler s.cpu.current h }

def setIrqs (s : IrqQueue τ) (enabled : Bool) : IrqQueue τ :=
  { s with irqs := Function.update s.irqs s.cpu.current enabled }

/-- `m_irqsWereEnabled = irqEnabled()`. -/
def saveIrqs (s : IrqQueue τ) : IrqQueue τ := { s with irqsWereEnabled := s.irqs s.cpu.current }

/-- `IrqDisableLock::lock()` of a handler. Its interrupts are off, so nothing comes in between. -/
def lock (s : IrqQueue τ) : IrqQueue τ :=
  let s := s.saveIrqs
  let s := if s.irqsWereEnabled then s.setIrqs false else s
  { s with locked := true }

/-- `assert(m_locked)` and `m_locked = false`. -/
def clearLocked (s : IrqQueue τ) : Option (IrqQueue τ) :=
  if s.locked then some { s with locked := false } else none

/-- `if (m_irqsWereEnabled) sti()`. -/
def restoreIrqs (s : IrqQueue τ) : IrqQueue τ := if s.irqsWereEnabled then s.setIrqs true else s

/-- `IrqDisableLock::unlock()` of a handler. -/
def unlock (s : IrqQueue τ) : Option (IrqQueue τ) := s.clearLocked.map restoreIrqs

/-- `Task::resume`. -/
def resume (s : IrqQueue τ) (task : τ) : Option (IrqQueue τ) :=
  if s.cpu.state task = .sleeping ∧ s.cpu.current ≠ task then
    some { s with cpu := s.cpu.setState task .running }
  else none

/-- Where the use of the heap returns to. -/
def HeapUse.after : HeapUse → IrqPc
  | .read len => .readLock len
  | .other => .out

/-- What is done with the buffer lock. -/
def LockUse.start : LockUse → IrqPc
  | .push len => .readPush len
  | .loop len => .readLoop len

/-- The next step of the current task at a control point, other than a yield. -/
def execTask (s : IrqQueue τ) : IrqPc → Option (IrqQueue τ)
  | .heapXchg use =>
    some (if s.heapMutex then s.goto (.heapYield use)
      else { s with heapMutex := true }.goto (.heapHold use))
  | .heapHold use =>
    if s.heapMutex then some ({ s with heapMutex := false }.goto (HeapUse.after use)) else none
  | .readTest len =>
    some (s.goto (if s.queue.available = 0 then .heapXchg (.read len) else .readScope len))
  | .readLock len => some (s.saveIrqs.goto (.lockTest (.push len)))
  | .lockTest use => some (s.goto (if s.irqsWereEnabled then .lockCli use else .lockSet use))
  | .lockCli use => some ((s.setIrqs false).goto (.lockSet use))
  | .lockSet use => some ({ s with locked := true }.goto (LockUse.start use))
  | .readPush len =>
    some ({ s with readSubscribers := s.readSubscribers ++ [s.cpu.current] }.goto
      (.readDisable len))
  | .readDisable len =>
    some ({ s with cpu := { s.cpu with schedEnable := false } }.goto (.readSleep len))
  | .readSleep len =>
    if s.cpu.state s.cpu.current = .running then
      some ({ s with cpu := s.cpu.setState s.cpu.current .sleeping }.goto (.readRelease len))
    else none
  | .readRelease len => s.clearLocked.map (·.goto (.readReleased len))
  | .readReleased len => some (s.restoreIrqs.goto (.readEnable len))
  | .readEnable len =>
    some ({ s with cpu := { s.cpu with schedEnable := true } }.goto (.readYield len))
  | .readScope len => some (s.saveIrqs.goto (.lockTest (.loop len)))
  | .readLoop 0 => some (s.goto .readUnlock)
  | .readLoop (len + 1) =>
    if 0 < s.queue.available then
      s.queue.readByte.map fun (_, q) => { s with queue := q }.goto (.readLoop len)
    else some (s.goto .readUnlock)
  | .readUnlock => s.clearLocked.map (·.goto .readUnlocked)
  | .readUnlocked => some (s.restoreIrqs.goto .out)
  | .out | .heapYield _ | .readYield _ => none

/-- The next step of the handler on top of the current task, other than a yield. -/
def execHandler (s : IrqQueue τ) : HandlerPc τ → Option (IrqQueue τ)
  | .lock buffer => some (s.lock.setHandler (some (.write buffer)))
  | .write [] => some (s.setHandler (some .pop))
  | .write (c :: cs) =>
    (s.queue.writeByte c).map fun q => { s with queue := q }.setHandler (some (.write cs))
  | .pop =>
    match s.readSubscribers with
    | [] => some (s.setHandler (some .unlock))
    | task :: tasks => some ({ s with readSubscribers := tasks }.setHandler (some (.heapXchg task)))
  | .heapXchg task =>
    some (if s.heapMutex then s.setHandler (some (.heapYield task))
      else { s with heapMutex := true }.setHandler (some (.heapHold task)))
  | .heapHold task =>
    if s.heapMutex then some ({ s with heapMutex := false }.setHandler (some (.resume task)))
    else none
  | .resume task => (s.resume task).map (·.setHandler (some .pop))
  | .unlock => s.unlock.map fun s => (s.setHandler none).setIrqs true
  | .heapYield _ => none

/-- The next step of the current task. -/
def exec (s : IrqQueue τ) : Option (IrqQueue τ) :=
  match s.handler s.cpu.current with
  | some h => s.execHandler h
  | none => s.execTask (s.cpu.pc s.cpu.current)

/-- The current task returns from `sched::yield()`. -/
def yielded (s : IrqQueue τ) : Option (IrqQueue τ) :=
  match s.handler s.cpu.current, s.cpu.pc s.cpu.current with
  | some (.heapYield task), _ => some (s.setHandler (some (.heapXchg task)))
  | none, .heapYield use => some (s.goto (.heapXchg use))
  | none, .readYield len => some (s.goto (.readScope len))
  | _, _ => none

/-- The scheduler picks a task, if it is enabled. -/
def switchTo (s : IrqQueue τ) (next : τ) : Option (IrqQueue τ) :=
  if s.cpu.schedEnable then
    if s.cpu.schedulable next then some { s with cpu := { s.cpu with current := next } } else none
  else if next = s.cpu.current then some s else none

/-- What happens next on the CPU. -/
inductive Event (τ : Type)
  /-- the current task calls `read`, or uses the heap for something else -/
  | read (len : ℕ)
  | heap
  /-- the current task leaves the kernel, with the interrupts on -/
  | leave
  /-- the current task, or the handler on top of it, makes a step -/
  | exec
  /-- the current task yields, and the scheduler picks a task -/
  | yield (next : τ)
  /-- the timer interrupts the current task, and the scheduler picks a task -/
  | preempt (next : τ)
  /-- a device interrupts the current task -/
  | interrupt (buffer : List UInt8)

/-- The current task calls a function. -/
def call (s : IrqQueue τ) (p : IrqPc) : Option (IrqQueue τ) :=
  if s.handler s.cpu.current = none ∧ s.cpu.pc s.cpu.current = .out then some (s.goto p) else none

def step (s : IrqQueue τ) : Event τ → Option (IrqQueue τ)
  | .read len => s.call (.readTest len)
  | .heap => s.call (.heapXchg .other)
  | .leave => (s.call .out).map (·.setIrqs true)
  | .exec => s.exec
  | .yield next => s.yielded.bind (·.switchTo next)
  | .preempt next => if s.irqs s.cpu.current then s.switchTo next else none
  | .interrupt buffer =>
    if s.irqs s.cpu.current then some ((s.setIrqs false).setHandler (some (.lock buffer))) else none

/-- The task has taken the heap lock. -/
def HoldsHeap : IrqPc → Prop
  | .heapHold _ => True
  | _ => False

instance : DecidablePred HoldsHeap
  | .heapHold _ => isTrue trivial
  | .out | .heapXchg _ | .heapYield _ | .readTest _ | .readLock _ | .lockTest _ => isFalse id
  | .lockCli _ | .lockSet _ | .readPush _ | .readDisable _ | .readSleep _ => isFalse id
  | .readRelease _ | .readReleased _ | .readEnable _ | .readYield _ | .readScope _ => isFalse id
  | .readLoop _ | .readUnlock | .readUnlocked => isFalse id

/-- A device does not interrupt a task that has the heap lock, while there is a subscriber. -/
def Unencumbered (s : IrqQueue τ) : Event τ → Prop
  | .interrupt _ => HoldsHeap (s.cpu.pc s.cpu.current) → s.readSubscribers = []
  | _ => True

instance (s : IrqQueue τ) : DecidablePred s.Unencumbered
  | .interrupt _ =>
    inferInstanceAs (Decidable (HoldsHeap (s.cpu.pc s.cpu.current) → s.readSubscribers = []))
  | .read _ | .heap | .leave | .exec | .yield _ | .preempt _ => isTrue trivial

variable {s s' : IrqQueue τ} {u : τ} {p : IrqPc} {h : HandlerPc τ}

/-- What a step of the current task below its handler leaves as it is. -/
structure TaskStep (s s' : IrqQueue τ) : Prop where
  handler : s'.handler = s.handler
  current : s'.cpu.current = s.cpu.current
  pc : ∀ u, u ≠ s.cpu.current → s'.cpu.pc u = s.cpu.pc u
  irqs : ∀ u, u ≠ s.cpu.current → s'.irqs u = s.irqs u

theorem taskStep_goto (s : IrqQueue τ) (p : IrqPc) : TaskStep s (s.goto p) where
  handler := rfl
  current := rfl
  pc _ hu := by simp [goto, hu]
  irqs _ _ := rfl

theorem taskStep_setIrqs (s : IrqQueue τ) (b : Bool) (p : IrqPc) :
    TaskStep s ((s.setIrqs b).goto p) where
  handler := rfl
  current := rfl
  pc _ hu := Function.update_of_ne hu _ _
  irqs _ hu := Function.update_of_ne hu _ _

theorem exists_restoreIrqs (s : IrqQueue τ) : ∃ b, s.restoreIrqs = s.setIrqs b := by
  rw [restoreIrqs]
  split_ifs
  · exact ⟨true, rfl⟩
  · refine ⟨s.irqs s.cpu.current, ?_⟩
    rw [setIrqs, Function.update_eq_self]

theorem lock_of_off (hoff : s.irqs s.cpu.current = false) :
    s.lock = { s with irqsWereEnabled := false, locked := true } := by
  simp [lock, saveIrqs, hoff]

omit [DecidableEq τ] in
theorem clearLocked_eq_some : s.clearLocked = some s' ↔
    s.locked = true ∧ s' = { s with locked := false } := by
  rw [clearLocked, Option.ite_none_right_eq_some, Option.some.injEq, eq_comm (a := s')]

theorem exists_of_unlock (hs : s.unlock = some s') : ∃ b,
    s' = { s with locked := false }.setIrqs b := by
  obtain ⟨s₁, hs₁, rfl⟩ := Option.map_eq_some_iff.mp hs
  obtain ⟨-, rfl⟩ := clearLocked_eq_some.mp hs₁
  exact exists_restoreIrqs _

theorem taskStep_execTask (hs : s.execTask p = some s') : TaskStep s s' := by
  have hgoto : ∀ t : IrqQueue τ, t.handler = s.handler → t.cpu.current = s.cpu.current →
      t.cpu.pc = s.cpu.pc → t.irqs = s.irqs → ∀ q, TaskStep s (t.goto q) := by
    intro t hh hc hp hi q
    refine ⟨hh, hc, fun u hu => ?_, fun u _ => congrFun hi u⟩
    simp [goto, hc, hu, hp]
  cases p with
  | out | heapYield use | readYield len => cases hs
  | heapXchg use =>
    cases hs
    split_ifs
    · exact hgoto s rfl rfl rfl rfl _
    · exact hgoto { s with heapMutex := true } rfl rfl rfl rfl _
  | heapHold use =>
    simp only [execTask, Option.ite_none_right_eq_some, Option.some.injEq] at hs
    obtain ⟨-, rfl⟩ := hs
    exact hgoto { s with heapMutex := false } rfl rfl rfl rfl _
  | readTest len =>
    cases hs
    exact hgoto s rfl rfl rfl rfl _
  | readPush len =>
    cases hs
    exact hgoto { s with readSubscribers := s.readSubscribers ++ [s.cpu.current] } rfl rfl rfl rfl _
  | readDisable len =>
    cases hs
    exact hgoto { s with cpu := { s.cpu with schedEnable := false } } rfl rfl rfl rfl _
  | readEnable len =>
    cases hs
    exact hgoto { s with cpu := { s.cpu with schedEnable := true } } rfl rfl rfl rfl _
  | readSleep len =>
    simp only [execTask, Option.ite_none_right_eq_some, Option.some.injEq] at hs
    obtain ⟨-, rfl⟩ := hs
    exact hgoto { s with cpu := s.cpu.setState s.cpu.current .sleeping } rfl rfl rfl rfl _
  | readLock len | readScope len =>
    cases hs
    exact hgoto s.saveIrqs rfl rfl rfl rfl _
  | lockTest use =>
    cases hs
    exact hgoto s rfl rfl rfl rfl _
  | lockCli use =>
    cases hs
    exact taskStep_setIrqs s false _
  | lockSet use =>
    cases hs
    exact hgoto { s with locked := true } rfl rfl rfl rfl _
  | readRelease len | readUnlock =>
    obtain ⟨s₁, hs₁, rfl⟩ := Option.map_eq_some_iff.mp hs
    obtain ⟨-, rfl⟩ := clearLocked_eq_some.mp hs₁
    exact hgoto { s with locked := false } rfl rfl rfl rfl _
  | readReleased len | readUnlocked =>
    cases hs
    obtain ⟨b, hb⟩ := exists_restoreIrqs s
    rw [hb]
    exact taskStep_setIrqs s b _
  | readLoop len =>
    cases len with
    | zero =>
      cases hs
      exact hgoto s rfl rfl rfl rfl _
    | succ len =>
      simp only [execTask] at hs
      split_ifs at hs
      · obtain ⟨⟨c, q⟩, -, rfl⟩ := Option.map_eq_some_iff.mp hs
        exact hgoto { s with queue := q } rfl rfl rfl rfl _
      · cases hs
        exact hgoto s rfl rfl rfl rfl _

/-! ### Waiting for the heap in a handler -/

/-- The handler has no list item to free. -/
def Early : HandlerPc τ → Prop
  | .lock _ | .write _ | .pop | .unlock => True
  | .heapXchg _ | .heapYield _ | .heapHold _ | .resume _ => False

/-- A handler on top of a task that has the heap lock finds no subscriber. -/
structure Bare (s : IrqQueue τ) : Prop where
  off : ∀ u, s.handler u ≠ none → s.irqs u = false
  early : ∀ u h, s.handler u = some h → HoldsHeap (s.cpu.pc u) →
    Early h ∧ s.readSubscribers = [] ∧ s.cpu.current = u

omit [DecidableEq τ] in
theorem bare_init (buffer : ℕ → UInt8) (current : τ) : Bare (init buffer current) where
  off u hu := absurd rfl hu
  early u h hu := by cases hu

namespace Bare

omit [DecidableEq τ] in
theorem taskStep (hb : Bare s) (hnone : s.handler s.cpu.current = none) (ht : TaskStep s s') :
    Bare s' := by
  have hne : ∀ v, s'.handler v ≠ none → v ≠ s.cpu.current := by
    rintro v hv rfl
    rw [ht.handler] at hv
    exact hv hnone
  constructor
  · intro v hv
    rw [ht.irqs v (hne v hv)]
    exact hb.off v (by rwa [← ht.handler])
  · intro v h hv hp
    have hvc := hne v (by simp [hv])
    rw [ht.handler] at hv
    rw [ht.pc v hvc] at hp
    exact absurd (hb.early v h hv hp).2.2.symm hvc

theorem handlerStep {o : Option (HandlerPc τ)} (hb : Bare s)
    (hh : s.handler s.cpu.current = some h)
    (hhandler : s'.handler = Function.update s.handler s.cpu.current o)
    (hpc : s'.cpu.pc = s.cpu.pc) (hcur : s'.cpu.current = s.cpu.current)
    (hirqs : ∀ v, v ≠ s.cpu.current → s'.irqs v = s.irqs v)
    (hoff : o ≠ none → s'.irqs s.cpu.current = false)
    (hearly : ∀ g, o = some g → Early h → s.readSubscribers = [] →
      Early g ∧ s'.readSubscribers = []) : Bare s' := by
  constructor
  · intro v hv
    rw [hhandler] at hv
    rcases eq_or_ne v s.cpu.current with rfl | hne
    · rw [Function.update_self] at hv
      exact hoff hv
    · rw [Function.update_of_ne hne] at hv
      rw [hirqs v hne]
      exact hb.off v hv
  · intro v g hv hp
    rw [hhandler] at hv
    rw [hpc] at hp
    rw [hcur]
    rcases eq_or_ne v s.cpu.current with rfl | hne
    · rw [Function.update_self] at hv
      obtain ⟨he, hsub, -⟩ := hb.early _ h hh hp
      obtain ⟨he', hsub'⟩ := hearly g hv he hsub
      exact ⟨he', hsub', rfl⟩
    · rw [Function.update_of_ne hne] at hv
      exact absurd (hb.early v g hv hp).2.2.symm hne

theorem execHandler (hb : Bare s) (hh : s.handler s.cpu.current = some h)
    (hs : s.execHandler h = some s') : Bare s' := by
  have hoff := hb.off s.cpu.current (by simp [hh])
  cases h with
  | lock buffer =>
    rw [IrqQueue.execHandler, lock_of_off hoff] at hs
    cases hs
    refine hb.handlerStep hh rfl rfl rfl (fun _ _ => rfl) (fun _ => hoff) ?_
    rintro _ ⟨⟩ _ hsub
    exact ⟨trivial, hsub⟩
  | write buffer =>
    cases buffer with
    | nil =>
      cases hs
      refine hb.handlerStep hh rfl rfl rfl (fun _ _ => rfl) (fun _ => hoff) ?_
      rintro _ ⟨⟩ _ hsub
      exact ⟨trivial, hsub⟩
    | cons c cs =>
      obtain ⟨q, -, rfl⟩ := Option.map_eq_some_iff.mp hs
      refine hb.handlerStep hh rfl rfl rfl (fun _ _ => rfl) (fun _ => hoff) ?_
      rintro _ ⟨⟩ _ hsub
      exact ⟨trivial, hsub⟩
  | pop =>
    simp only [IrqQueue.execHandler] at hs
    split at hs
    case h_1 hlist =>
      cases hs
      refine hb.handlerStep hh rfl rfl rfl (fun _ _ => rfl) (fun _ => hoff) ?_
      rintro _ ⟨⟩ _ hsub
      exact ⟨trivial, hsub⟩
    case h_2 task tasks hlist =>
      cases hs
      refine hb.handlerStep hh rfl rfl rfl (fun _ _ => rfl) (fun _ => hoff) ?_
      intro _ _ _ hsub
      rw [hlist] at hsub
      cases hsub
  | heapXchg task =>
    cases hs
    split_ifs
    all_goals
      exact hb.handlerStep hh rfl rfl rfl (fun _ _ => rfl) (fun _ => hoff) fun _ _ he => he.elim
  | heapHold task =>
    simp only [IrqQueue.execHandler, Option.ite_none_right_eq_some, Option.some.injEq] at hs
    obtain ⟨-, rfl⟩ := hs
    exact hb.handlerStep hh rfl rfl rfl (fun _ _ => rfl) (fun _ => hoff) fun _ _ he => he.elim
  | resume task =>
    obtain ⟨s₁, hs₁, rfl⟩ := Option.map_eq_some_iff.mp hs
    simp only [IrqQueue.resume, Option.ite_none_right_eq_some, Option.some.injEq] at hs₁
    obtain ⟨-, rfl⟩ := hs₁
    exact hb.handlerStep hh rfl rfl rfl (fun _ _ => rfl) (fun _ => hoff) fun _ _ he => he.elim
  | unlock =>
    obtain ⟨s₁, hs₁, rfl⟩ := Option.map_eq_some_iff.mp hs
    obtain ⟨b, rfl⟩ := exists_of_unlock hs₁
    refine hb.handlerStep (o := none) hh rfl rfl rfl (fun v hv => ?_) (absurd rfl) nofun
    simp [setIrqs, setHandler, hv]
  | heapYield task => cases hs

theorem switchTo {next : τ} (hb : Bare s)
    (hcur : ∀ h, s.handler s.cpu.current = some h → ¬ Early h)
    (hs : s.switchTo next = some s') : Bare s' := by
  rw [IrqQueue.switchTo] at hs
  split_ifs at hs
  · cases hs
    refine ⟨hb.off, fun v h hv hp => ?_⟩
    obtain ⟨he, -, rfl⟩ := hb.early v h hv hp
    exact absurd he (hcur h hv)
  · cases hs
    exact hb

theorem yielded (hb : Bare s) (hs : s.yielded = some s') :
    Bare s' ∧ ∀ h, s'.handler s'.cpu.current = some h → ¬ Early h := by
  rw [IrqQueue.yielded] at hs
  split at hs
  case h_1 task hh =>
    cases hs
    have hoff := hb.off s.cpu.current (by simp [hh])
    refine ⟨hb.handlerStep hh rfl rfl rfl (fun _ _ => rfl) (fun _ => hoff)
      fun _ _ he => he.elim, ?_⟩
    intro h hh'
    simp only [setHandler, Function.update_self, Option.some.injEq] at hh'
    subst hh'
    exact id
  case h_2 hh _ | h_3 hh _ =>
    cases hs
    refine ⟨hb.taskStep hh (taskStep_goto s _), fun h hh' => ?_⟩
    rw [goto] at hh'
    simp [hh] at hh'
  case h_4 => cases hs

theorem step {e : Event τ} (hb : Bare s) (hok : s.Unencumbered e) (hs : s.step e = some s') :
    Bare s' := by
  have hcall : ∀ p, s.call p = some s' → Bare s' := by
    intro p hs
    rw [call, Option.ite_none_right_eq_some, Option.some.injEq] at hs
    obtain ⟨⟨hnone, -⟩, rfl⟩ := hs
    exact hb.taskStep hnone (taskStep_goto s p)
  cases e with
  | read len => exact hcall _ hs
  | heap => exact hcall _ hs
  | leave =>
    obtain ⟨s₁, hs₁, rfl⟩ := Option.map_eq_some_iff.mp hs
    rw [call, Option.ite_none_right_eq_some, Option.some.injEq] at hs₁
    obtain ⟨⟨hnone, -⟩, rfl⟩ := hs₁
    exact hb.taskStep hnone (taskStep_setIrqs s true .out)
  | exec =>
    simp only [IrqQueue.step, IrqQueue.exec] at hs
    split at hs
    case h_1 h hh => exact hb.execHandler hh hs
    case h_2 hh => exact hb.taskStep hh (taskStep_execTask hs)
  | yield next =>
    obtain ⟨s₁, hs₁, hs⟩ := Option.bind_eq_some_iff.mp hs
    obtain ⟨hb₁, hlate⟩ := hb.yielded hs₁
    exact hb₁.switchTo hlate hs
  | preempt next =>
    simp only [IrqQueue.step, Option.ite_none_right_eq_some] at hs
    obtain ⟨hirqs, hs⟩ := hs
    refine hb.switchTo (fun h hh => ?_) hs
    rw [hb.off s.cpu.current (by simp [hh])] at hirqs
    cases hirqs
  | interrupt buffer =>
    simp only [IrqQueue.step, Option.ite_none_right_eq_some, Option.some.injEq] at hs
    obtain ⟨hirqs, rfl⟩ := hs
    constructor
    · intro v hv
      rcases eq_or_ne v s.cpu.current with rfl | hne
      · simp [setHandler, setIrqs]
      · simp only [setHandler, setIrqs, Function.update_of_ne hne] at hv ⊢
        exact hb.off v hv
    · intro v h hv hp
      rcases eq_or_ne v s.cpu.current with rfl | hne
      · simp only [setHandler, setIrqs, Function.update_self, Option.some.injEq] at hv
        subst hv
        exact ⟨trivial, hok hp, rfl⟩
      · simp only [setHandler, setIrqs, Function.update_of_ne hne] at hv
        exact hb.early v h hv hp

end Bare

/-- In a run in which no device interrupts a task that has the heap lock while there is a
subscriber, no handler waits for a heap lock that the task below it has. -/
theorem not_holdsHeap_of_unencumbered (buffer : ℕ → UInt8) (current : τ) (s : IrqQueue τ)
    (hr : Run.Reachable step Unencumbered (init buffer current) s) (u task : τ)
    (hh : s.handler u = some (.heapXchg task)) : ¬ HoldsHeap (s.cpu.pc u) := by
  have hb : Bare s :=
    hr.invariant (bare_init buffer current) fun _ _ _ hb hok hs => hb.step hok hs
  exact fun hp => (hb.early u _ hh hp).1

/-- The task `false` reads from the empty queue and sleeps. -/
def sleepingReader : List (Event Bool) :=
  Event.read 1 :: List.replicate 13 .exec ++ [Event.yield true]

/-- A device interrupts the other task before it takes the heap lock. -/
def interruptedBefore : List (Event Bool) :=
  sleepingReader ++ [Event.heap, .interrupt [7], .exec, .exec, .exec, .exec]

theorem not_holdsHeap_of_unencumbered_interruptedBefore :
    ∃ s : IrqQueue Bool,
      Run.guardedRun step Unencumbered (init (fun _ => 0) false) interruptedBefore = some s ∧
      s.handler true = some (.heapXchg false) ∧ ¬ HoldsHeap (s.cpu.pc true) := by
  have hrun : (Run.guardedRun step Unencumbered (init (fun _ => 0) false) interruptedBefore).map
      (fun s => s.handler true) = some (some (.heapXchg false)) := by
    decide_cbv
  obtain ⟨s, hs, hh⟩ := Option.map_eq_some_iff.mp hrun
  exact ⟨s, hs, hh, not_holdsHeap_of_unencumbered (fun _ => 0) false s
    (Run.reachable_of_guardedRun hs) true false hh⟩

/-- A device interrupts the other task while it has the heap lock. -/
def interruptedInside : List (Event Bool) :=
  sleepingReader ++ [.heap, .exec, .interrupt [7], .exec, .exec, .exec, .exec]

theorem not_forall_not_holdsHeap : ¬ ∀ s : IrqQueue Bool,
    Run.Reachable step (fun _ _ => True) (init (fun _ => 0) false) s →
      ∀ u task, s.handler u = some (.heapXchg task) → ¬ HoldsHeap (s.cpu.pc u) := by
  intro hall
  have hrun : (interruptedInside.foldlM step (init (fun _ => 0) false)).map
      (fun s => (s.handler true, s.cpu.pc true)) =
        some (some (.heapXchg false), .heapHold .other) := by
    decide_cbv
  obtain ⟨s, hs, heq⟩ := Option.map_eq_some_iff.mp hrun
  rw [Prod.mk.injEq] at heq
  refine hall s (Run.reachable_of_foldlM hs) true false heq.1 ?_
  rw [heq.2]
  trivial

end IrqQueue

end Koerix
