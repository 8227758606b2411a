import Koerix.Lib.Owner
import Koerix.Lib.Run
import Koerix.Sync.Cpu
import Mathlib.Data.List.Nodup

/-! # The mutex

One CPU runs the steps of `Mutex::lock` and `Mutex::unlock` for any number of
tasks. A task can be preempted between any two steps while scheduling is
enabled, and the scheduler may pick any task that is ready. A failed assertion
is an undefined step.
-/

namespace Koerix

/-- What a task does next. -/
inductive MutexPc (τ : Type*)
  /-- the task does not use the mutex -/
  | out
  /-- `while (xchg(1, &m_lock))` -/
  | lockXchg
  /-- `m_waitingTasksLock.lock()`: the exchange, and the yield when it fails -/
  | lockWaiting
  | lockWaitingYield
  /-- `m_waitingTasks.push_back(currentTask)` -/
  | lockPush
  /-- `sleepAndUnlock`: `s_schedEnable = false` -/
  | lockDisable
  /-- `sleep()` -/
  | lockSleep
  /-- `lock->unlock()` -/
  | lockRelease
  /-- `s_schedEnable = true` -/
  | lockEnable
  /-- `sched::yield()` -/
  | lockYield
  /-- `m_heldBy = currentTask` -/
  | lockHold
  /-- `lock()` has returned -/
  | holding
  /-- the assertions of `unlock()` -/
  | unlockCheck
  /-- `m_heldBy = nullptr` -/
  | unlockHolder
  /-- `m_lock = 0` -/
  | unlockWord
  /-- `m_waitingTasksLock.lock()`: the exchange, and the yield when it fails -/
  | unlockWaiting
  | unlockWaitingYield
  /-- `m_waitingTasks.pop_front()` if the list is not empty -/
  | unlockPop
  /-- `task->resume()` -/
  | unlockResume (task : τ)
  /-- `m_waitingTasksLock.unlock()` -/
  | unlockRelease
  deriving DecidableEq

/-- The mutex, the scheduler and the tasks. -/
structure Mutex (τ : Type*) where
  lock : Bool
  heldBy : Option τ
  waitingTasks : List τ
  waitingTasksLock : Bool
  schedEnable : Bool
  current : τ
  state : τ → TaskState
  pc : τ → MutexPc τ

namespace Mutex

variable {τ : Type*} [DecidableEq τ]

/-- A free mutex that no task uses. -/
def init (current : τ) : Mutex τ where
  lock := false
  heldBy := none
  waitingTasks := []
  waitingTasksLock := false
  schedEnable := true
  current := current
  state _ := .running
  pc _ := .out

def goto (s : Mutex τ) (p : MutexPc τ) : Mutex τ :=
  { s with pc := Function.update s.pc s.current p }

@[simp, grind =] theorem goto_pc (s : Mutex τ) (p : MutexPc τ) (t : τ) :
    (s.goto p).pc t = if t = s.current then p else s.pc t := by
  simp [goto, Function.update_apply]

@[simp, grind =] theorem goto_state (s : Mutex τ) (p : MutexPc τ) (t : τ) :
    (s.goto p).state t = s.state t := rfl

@[simp, grind =] theorem goto_current (s : Mutex τ) (p : MutexPc τ) :
    (s.goto p).current = s.current := rfl

@[simp, grind =] theorem goto_waitingTasks (s : Mutex τ) (p : MutexPc τ) :
    (s.goto p).waitingTasks = s.waitingTasks := rfl

@[simp, grind =] theorem goto_heldBy (s : Mutex τ) (p : MutexPc τ) :
    (s.goto p).heldBy = s.heldBy := rfl

/-- `m_state = state` of a task. -/
def setState (s : Mutex τ) (task : τ) (state : TaskState) : Mutex τ :=
  { s with state := Function.update s.state task state }

@[simp, grind =] theorem setState_state (s : Mutex τ) (task : τ) (x : TaskState) (t : τ) :
    (s.setState task x).state t = if t = task then x else s.state t := by
  simp [setState, Function.update_apply]

@[simp, grind =] theorem setState_pc (s : Mutex τ) (task : τ) (x : TaskState) (t : τ) :
    (s.setState task x).pc t = s.pc t := rfl

@[simp, grind =] theorem setState_current (s : Mutex τ) (task : τ) (x : TaskState) :
    (s.setState task x).current = s.current := rfl

@[simp, grind =] theorem setState_waitingTasks (s : Mutex τ) (task : τ) (x : TaskState) :
    (s.setState task x).waitingTasks = s.waitingTasks := rfl

@[simp, grind =] theorem setState_heldBy (s : Mutex τ) (task : τ) (x : TaskState) :
    (s.setState task x).heldBy = s.heldBy := rfl

/-- The assertions that the current task makes in a step from a control point. -/
def AssertsAt (s : Mutex τ) : MutexPc τ → Prop
  | .lockSleep => s.state s.current = .running
  | .lockRelease => s.waitingTasksLock = true
  | .unlockCheck => s.lock = true ∧ s.heldBy = some s.current
  | .unlockResume task => s.state task = .sleeping ∧ s.current ≠ task
  | .unlockRelease => s.waitingTasksLock = true
  | .out | .lockXchg | .lockWaiting | .lockWaitingYield | .lockPush | .lockDisable => True
  | .lockEnable | .lockYield | .lockHold | .holding | .unlockHolder | .unlockWord => True
  | .unlockWaiting | .unlockWaitingYield | .unlockPop => True

instance (s : Mutex τ) : DecidablePred s.AssertsAt
  | .lockSleep => inferInstanceAs (Decidable (_ = _))
  | .lockRelease => inferInstanceAs (Decidable (_ = _))
  | .unlockCheck => inferInstanceAs (Decidable (_ ∧ _))
  | .unlockResume _ => inferInstanceAs (Decidable (_ ∧ _ ≠ _))
  | .unlockRelease => inferInstanceAs (Decidable (_ = _))
  | .out | .lockXchg | .lockWaiting | .lockWaitingYield | .lockPush | .lockDisable => isTrue trivial
  | .lockEnable | .lockYield | .lockHold | .holding | .unlockHolder | .unlockWord => isTrue trivial
  | .unlockWaiting | .unlockWaitingYield | .unlockPop => isTrue trivial

/-- The assertions that the next step of the current task makes. -/
def Asserts (s : Mutex τ) : Prop := s.AssertsAt (s.pc s.current)

instance (s : Mutex τ) : Decidable s.Asserts := inferInstanceAs (Decidable (AssertsAt _ _))

/-- The next step of the current task, other than a yield. -/
def exec (s : Mutex τ) : Mutex τ :=
  match s.pc s.current with
  | .out => s.goto .lockXchg
  | .lockXchg => if s.lock then s.goto .lockWaiting else { s with lock := true }.goto .lockHold
  | .lockWaiting =>
    if s.waitingTasksLock then s.goto .lockWaitingYield
    else { s with waitingTasksLock := true }.goto .lockPush
  | .lockPush => { s with waitingTasks := s.waitingTasks ++ [s.current] }.goto .lockDisable
  | .lockDisable => { s with schedEnable := false }.goto .lockSleep
  | .lockSleep => (s.setState s.current .sleeping).goto .lockRelease
  | .lockRelease => { s with waitingTasksLock := false }.goto .lockEnable
  | .lockEnable => { s with schedEnable := true }.goto .lockYield
  | .lockHold => { s with heldBy := some s.current }.goto .holding
  | .holding => s.goto .unlockCheck
  | .unlockCheck => s.goto .unlockHolder
  | .unlockHolder => { s with heldBy := none }.goto .unlockWord
  | .unlockWord => { s with lock := false }.goto .unlockWaiting
  | .unlockWaiting =>
    if s.waitingTasksLock then s.goto .unlockWaitingYield
    else { s with waitingTasksLock := true }.goto .unlockPop
  | .unlockPop =>
    match s.waitingTasks with
    | [] => s.goto .unlockRelease
    | task :: tasks => { s with waitingTasks := tasks }.goto (.unlockResume task)
  | .unlockResume task => (s.setState task .running).goto .unlockRelease
  | .unlockRelease => { s with waitingTasksLock := false }.goto .out
  | .lockWaitingYield | .lockYield | .unlockWaitingYield => s

/-- Where a yield returns to. -/
def afterYield : MutexPc τ → Option (MutexPc τ)
  | .lockWaitingYield => some .lockWaiting
  | .lockYield => some .lockXchg
  | .unlockWaitingYield => some .unlockWaiting
  | _ => none

/-- The task runs code other than `lock()` and `unlock()`. -/
def Away : MutexPc τ → Prop
  | .out | .holding => True
  | _ => False

instance : DecidablePred (Away (τ := τ)) := fun p =>
  match p with
  | .out | .holding => isTrue trivial
  | .lockXchg | .lockWaiting | .lockWaitingYield | .lockPush | .lockDisable => isFalse id
  | .lockSleep | .lockRelease | .lockEnable | .lockYield | .lockHold | .unlockCheck => isFalse id
  | .unlockHolder | .unlockWord | .unlockWaiting | .unlockWaitingYield => isFalse id
  | .unlockPop | .unlockResume _ | .unlockRelease => isFalse id

/-- What happens next on the CPU. -/
inductive Event (τ : Type*)
  /-- the current task makes a step -/
  | exec
  /-- the current task yields, and the scheduler picks a task -/
  | yield (next : τ)
  /-- the timer interrupts the current task, and the scheduler picks a task -/
  | preempt (next : τ)
  /-- the current task sleeps or exits for a reason of its own -/
  | rest (state : TaskState) (next : τ)
  /-- a task that sleeps for a reason of its own wakes up -/
  | wake (task : τ)

/-- The scheduler may switch to the task. -/
def schedulable (s : Mutex τ) (next : τ) : Bool := s.schedEnable && s.state next == .running

def step (s : Mutex τ) : Event τ → Option (Mutex τ)
  | .exec => if s.Asserts ∧ (afterYield (s.pc s.current)).isNone then some s.exec else none
  | .yield next => do
    let p ← afterYield (s.pc s.current)
    if s.schedulable next then some { s.goto p with current := next } else none
  | .preempt next => if s.schedulable next then some { s with current := next } else none
  | .rest state next =>
    if Away (s.pc s.current) ∧ s.schedulable next ∧ next ≠ s.current then
      some { s.setState s.current state with current := next }
    else none
  | .wake task =>
    if Away (s.pc task) ∧ s.state task = .sleeping then some (s.setState task .running) else none

/-- The task has taken the lock word. -/
def OwnsLock : MutexPc τ → Prop
  | .lockHold | .holding | .unlockCheck | .unlockHolder | .unlockWord => True
  | _ => False

/-- The task has taken the lock of the waiting list. -/
def OwnsWaiting : MutexPc τ → Prop
  | .lockPush | .lockDisable | .lockSleep | .lockRelease => True
  | .unlockPop | .unlockResume _ | .unlockRelease => True
  | _ => False

/-- The task has disabled the scheduler. -/
def OwnsCpu : MutexPc τ → Prop
  | .lockSleep | .lockRelease | .lockEnable => True
  | _ => False

/-- The task is between the return of `lock()` and the first store of its `unlock()`. -/
def Holds : MutexPc τ → Prop
  | .holding | .unlockCheck | .unlockHolder => True
  | _ => False

/-- The task is on the way to sleep, or sleeps. -/
def Parked : MutexPc τ → Prop
  | .lockRelease | .lockEnable | .lockYield | .lockXchg => True
  | _ => False

/-- The invariant of all interleavings. -/
structure Inv (s : Mutex τ) : Prop where
  lock : Owned OwnsLock s.pc s.lock
  waiting : Owned OwnsWaiting s.pc s.waitingTasksLock
  cpu : Owned OwnsCpu s.pc (!s.schedEnable)
  cpu_current : ∀ t, OwnsCpu (s.pc t) → t = s.current
  held : ∀ t, Holds (s.pc t) → s.heldBy = some t
  nodup : s.waitingTasks.Nodup
  queued : ∀ t ∈ s.waitingTasks, s.pc t = .lockDisable ∨ s.pc t = .lockSleep ∨
    Parked (s.pc t) ∧ s.state t = .sleeping
  asleep : ∀ t, s.state t ≠ .running → Parked (s.pc t) ∨ t ≠ s.current ∧ Away (s.pc t)
  awake : s.state s.current ≠ .running → s.pc s.current ≠ .lockXchg
  resuming : ∀ t u, s.pc t = .unlockResume u → u ∉ s.waitingTasks ∧ s.state u = .sleeping ∧
    (s.pc u = .lockYield ∨ s.pc u = .lockXchg)

variable {s s' : Mutex τ} {p : MutexPc τ} {t u : τ}

omit [DecidableEq τ] in
theorem inv_init (current : τ) : Inv (init current) where
  lock := ⟨by simp [init], by simp [init, OwnsLock], by simp [init, OwnsLock]⟩
  waiting := ⟨by simp [init], by simp [init, OwnsWaiting], by simp [init, OwnsWaiting]⟩
  cpu := ⟨by simp [init], by simp [init, OwnsCpu], by simp [init, OwnsCpu]⟩
  cpu_current := by simp [init, OwnsCpu]
  held := by simp [init, Holds]
  nodup := by simp [init]
  queued := by simp [init]
  asleep := by simp [init]
  awake := by simp [init]
  resuming := by simp [init]

namespace Inv

omit [DecidableEq τ] in
/-- The assertions hold. -/
theorem asserts (h : Inv s) : s.Asserts := by
  unfold Asserts
  cases hp : s.pc s.current
  case lockSleep =>
    by_contra hr
    have := h.asleep _ hr
    simp [hp, Parked] at this
  case lockRelease => exact h.waiting.set_of_range s.current (by simp [hp, OwnsWaiting])
  case unlockCheck =>
    constructor
    · exact h.lock.set_of_range s.current (by simp [hp, OwnsLock])
    · exact h.held s.current (by simp [hp, Holds])
  case unlockResume u =>
    obtain ⟨-, hs, hu⟩ := h.resuming _ _ hp
    refine ⟨hs, ?_⟩
    rintro rfl
    simp [hp] at hu
  case unlockRelease => exact h.waiting.set_of_range s.current (by simp [hp, OwnsWaiting])
  all_goals trivial

omit [DecidableEq τ] in
theorem running (h : Inv s) (hp : ¬ Parked (s.pc s.current)) : s.state s.current = .running := by
  by_contra hr
  rcases h.asleep s.current hr with hpark | ⟨hne, -⟩
  · exact hp hpark
  · exact hne rfl

omit [DecidableEq τ] in
theorem current_running (h : Inv s) (hp : s.pc s.current = .lockXchg) :
    s.state s.current = .running := by_contra fun hr => h.awake hr hp

omit [DecidableEq τ] in
theorem current_notMem (h : Inv s) (hr : s.state s.current = .running)
    (hp : s.pc s.current ≠ .lockDisable ∧ s.pc s.current ≠ .lockSleep) :
    s.current ∉ s.waitingTasks := by
  intro hmem
  rcases h.queued _ hmem with hd | hs | ⟨-, hs⟩
  · exact hp.1 hd
  · exact hp.2 hs
  · rw [hr] at hs
    cases hs

/-- A step that changes only the locks and the control point of the current task. -/
theorem move {l w e : Bool} {q : MutexPc τ} (h : Inv s) (hlock : Owned OwnsLock (s.goto q).pc l)
    (hwaiting : Owned OwnsWaiting (s.goto q).pc w) (hcpu : Owned OwnsCpu (s.goto q).pc (!e))
    (hn : Holds q → Holds (s.pc s.current)) (hq : ∀ u, q ≠ .unlockResume u)
    (hqueued : s.current ∈ s.waitingTasks →
      q = .lockDisable ∨ q = .lockSleep ∨ Parked q ∧ s.state s.current = .sleeping)
    (hasleep : s.state s.current ≠ .running → Parked q ∧ q ≠ .lockXchg)
    (hwoken : s.state s.current ≠ .sleeping ∨
      s.pc s.current ≠ .lockYield ∧ s.pc s.current ≠ .lockXchg) :
    Inv ({ s with lock := l, waitingTasksLock := w, schedEnable := e }.goto q) where
  lock := hlock
  waiting := hwaiting
  cpu := hcpu
  cpu_current := by
    have := h.cpu_current
    grind
  held := by
    have := h.held
    grind
  nodup := h.nodup
  queued := by
    have := h.queued
    grind
  asleep := by
    have := h.asleep
    grind
  awake := by grind
  resuming := by
    have := h.resuming
    grind

theorem move_awake {l w e : Bool} {q : MutexPc τ} (h : Inv s)
    (hlock : Owned OwnsLock (s.goto q).pc l) (hwaiting : Owned OwnsWaiting (s.goto q).pc w)
    (hcpu : Owned OwnsCpu (s.goto q).pc (!e)) (hr : s.state s.current = .running)
    (hp : s.pc s.current ≠ .lockDisable ∧ s.pc s.current ≠ .lockSleep)
    (hn : Holds q → Holds (s.pc s.current)) (hq : ∀ u, q ≠ .unlockResume u) :
    Inv ({ s with lock := l, waitingTasksLock := w, schedEnable := e }.goto q) := by
  apply h.move hlock hwaiting hcpu hn hq
  · intro hmem
    exact absurd hmem (h.current_notMem hr hp)
  · intro hs
    exact absurd hr hs
  · simp [hr]

theorem exec_lockPush (h : Inv s) (hp : s.pc s.current = .lockPush) :
    Inv ({ s with waitingTasks := s.waitingTasks ++ [s.current] }.goto .lockDisable) := by
  have hr : s.state s.current = .running := h.running (by simp [hp, Parked])
  have hmem : s.current ∉ s.waitingTasks := h.current_notMem hr (by simp [hp])
  -- only one task has the lock of the list, so nobody is being woken up
  have hnone : ∀ t u, s.pc t ≠ .unlockResume u := by
    intro t u ht
    have := h.waiting.unique t s.current (by simp [ht, OwnsWaiting]) (by simp [hp, OwnsWaiting])
    simp [this, hp] at ht
  have h' : Inv (s.goto .lockDisable) :=
    h.move_awake (h.lock.stay (by simp [hp, OwnsLock])) (h.waiting.stay (by simp [hp, OwnsWaiting]))
      (h.cpu.stay (by simp [hp, OwnsCpu])) hr (by simp [hp]) (by simp [Holds]) (by simp)
  exact
    { h' with
      nodup := h.nodup.append (List.nodup_singleton _) (by simpa using hmem)
      queued := by
        have := h'.queued
        grind
      resuming := by grind }

theorem exec_lockDisable (h : Inv s) (hp : s.pc s.current = .lockDisable) :
    Inv ({ s with schedEnable := false }.goto .lockSleep) := by
  have hr : s.state s.current = .running := h.running (by simp [hp, Parked])
  have he : s.schedEnable = true := by
    by_contra he
    obtain ⟨t, ht⟩ := h.cpu.exists_of_set (by simpa using he)
    rw [h.cpu_current t ht, hp] at ht
    exact ht
  have hcpu := h.cpu
  rw [he] at hcpu
  apply h.move (e := false) (q := .lockSleep) (h.lock.stay (by simp [hp, OwnsLock]))
    (h.waiting.stay (by simp [hp, OwnsWaiting])) (hcpu.acquire trivial)
  all_goals simp [hr, Holds]

theorem exec_lockSleep (h : Inv s) (hp : s.pc s.current = .lockSleep) :
    Inv ((s.setState s.current .sleeping).goto .lockRelease) := by
  constructor
  case lock => exact h.lock.stay (by simp [hp, OwnsLock])
  case waiting => exact h.waiting.stay (by simp [hp, OwnsWaiting])
  case cpu => exact h.cpu.stay (by simp [hp, OwnsCpu])
  case nodup => exact h.nodup
  all_goals
    have := h.cpu_current
    have := h.held
    have := h.queued
    have := h.asleep
    have := h.resuming
    grind [Holds, Parked]

theorem exec_lockRelease (h : Inv s) (hp : s.pc s.current = .lockRelease) :
    Inv ({ s with waitingTasksLock := false }.goto .lockEnable) := by
  apply h.move (h.lock.stay (by simp [hp, OwnsLock]))
    (h.waiting.release (by simp [hp, OwnsWaiting]) (by simp [OwnsWaiting]))
    (h.cpu.stay (by simp [hp, OwnsCpu]))
  case hqueued =>
    have := h.queued s.current
    simpa [hp, Parked] using this
  all_goals simp [hp, Holds, Parked]

theorem exec_lockEnable (h : Inv s) (hp : s.pc s.current = .lockEnable) :
    Inv ({ s with schedEnable := true }.goto .lockYield) := by
  apply h.move (e := true) (q := .lockYield) (h.lock.stay (by simp [hp, OwnsLock]))
    (h.waiting.stay (by simp [hp, OwnsWaiting]))
    (h.cpu.release (by simp [hp, OwnsCpu]) (by simp [OwnsCpu]))
  case hqueued =>
    have := h.queued s.current
    simpa [hp, Parked] using this
  all_goals simp [hp, Holds, Parked]

omit [DecidableEq τ] in
theorem not_holds (h : Inv s) (ho : OwnsLock (s.pc s.current)) (hne : t ≠ s.current) :
    ¬ Holds (s.pc t) := by
  intro ht
  have hrange : OwnsLock (s.pc t) := by
    cases hp : s.pc t <;> simp_all [Holds, OwnsLock]
  exact hne (h.lock.unique t s.current hrange ho)

theorem exec_lockHold (h : Inv s) (hp : s.pc s.current = .lockHold) :
    Inv ({ s with heldBy := some s.current }.goto .holding) := by
  have hr : s.state s.current = .running := h.running (by simp [hp, Parked])
  have hmem : s.current ∉ s.waitingTasks := h.current_notMem hr (by simp [hp])
  have hn : ∀ t, t ≠ s.current → ¬ Holds (s.pc t) :=
    fun t => h.not_holds (by simp [hp, OwnsLock])
  constructor
  case lock => exact h.lock.stay (by simp [hp, OwnsLock])
  case waiting => exact h.waiting.stay (by simp [hp, OwnsWaiting])
  case cpu => exact h.cpu.stay (by simp [hp, OwnsCpu])
  case nodup => exact h.nodup
  all_goals
    have := h.cpu_current
    have := h.queued
    have := h.asleep
    have := h.resuming
    grind

theorem exec_unlockHolder (h : Inv s) (hp : s.pc s.current = .unlockHolder) :
    Inv ({ s with heldBy := none }.goto .unlockWord) := by
  have hr : s.state s.current = .running := h.running (by simp [hp, Parked])
  have hmem : s.current ∉ s.waitingTasks := h.current_notMem hr (by simp [hp])
  have hn : ∀ t, t ≠ s.current → ¬ Holds (s.pc t) :=
    fun t => h.not_holds (by simp [hp, OwnsLock])
  constructor
  case lock => exact h.lock.stay (by simp [hp, OwnsLock])
  case waiting => exact h.waiting.stay (by simp [hp, OwnsWaiting])
  case cpu => exact h.cpu.stay (by simp [hp, OwnsCpu])
  case nodup => exact h.nodup
  all_goals
    have := h.cpu_current
    have := h.queued
    have := h.asleep
    have := h.resuming
    grind [Holds]

omit [DecidableEq τ] in
theorem sleeping_of_owns (h : Inv s) (ho : OwnsWaiting (s.pc s.current)) (hne : t ≠ s.current)
    (ht : t ∈ s.waitingTasks) :
    s.state t = .sleeping ∧ (s.pc t = .lockYield ∨ s.pc t = .lockXchg) := by
  have hnot : ¬ OwnsWaiting (s.pc t) := fun hw => hne (h.waiting.unique t s.current hw ho)
  have hcpu : ¬ OwnsCpu (s.pc t) := fun hw => hne (h.cpu_current t hw)
  rcases h.queued t ht with hp | hp | ⟨hp, hs⟩
  · simp [hp, OwnsWaiting] at hnot
  · simp [hp, OwnsWaiting] at hnot
  · refine ⟨hs, ?_⟩
    cases hq : s.pc t <;> simp_all [Parked, OwnsCpu]

theorem exec_unlockPop {task : τ} {tasks : List τ} (h : Inv s) (hp : s.pc s.current = .unlockPop)
    (hw : s.waitingTasks = task :: tasks) :
    Inv ({ s with waitingTasks := tasks }.goto (.unlockResume task)) := by
  have hr : s.state s.current = .running := h.running (by simp [hp, Parked])
  have hmem : s.current ∉ s.waitingTasks := h.current_notMem hr (by simp [hp])
  have hne : task ≠ s.current := by
    rintro rfl
    simp [hw] at hmem
  have hnodup := h.nodup
  rw [hw, List.nodup_cons] at hnodup
  have htask := h.sleeping_of_owns (by simp [hp, OwnsWaiting]) hne (by simp [hw])
  constructor
  case lock => exact h.lock.stay (by simp [hp, OwnsLock])
  case waiting => exact h.waiting.stay (by simp [hp, OwnsWaiting])
  case cpu => exact h.cpu.stay (by simp [hp, OwnsCpu])
  case nodup => exact hnodup.2
  all_goals
    have := h.cpu_current
    have := h.held
    have := h.queued
    have := h.asleep
    have := h.resuming
    grind [Holds]

theorem exec_unlockResume {task : τ} (h : Inv s) (hp : s.pc s.current = .unlockResume task) :
    Inv ((s.setState task .running).goto .unlockRelease) := by
  have hr : s.state s.current = .running := h.running (by simp [hp, Parked])
  have hmem : s.current ∉ s.waitingTasks := h.current_notMem hr (by simp [hp])
  obtain ⟨htask, hs, hpc⟩ := h.resuming _ _ hp
  have hnone : ∀ t u, t ≠ s.current → s.pc t ≠ .unlockResume u := by
    intro t u hne ht
    exact hne (h.waiting.unique t s.current (by simp [ht, OwnsWaiting]) (by simp [hp, OwnsWaiting]))
  constructor
  case lock => exact h.lock.stay (by simp [hp, OwnsLock])
  case waiting => exact h.waiting.stay (by simp [hp, OwnsWaiting])
  case cpu => exact h.cpu.stay (by simp [hp, OwnsCpu])
  case nodup => exact h.nodup
  all_goals
    have := h.cpu_current
    have := h.held
    have := h.queued
    have := h.asleep
    grind [Holds]

/-- The control points own the same locks. -/
def SameLocks (p q : MutexPc τ) : Prop :=
  (OwnsLock p ↔ OwnsLock q) ∧ (OwnsWaiting p ↔ OwnsWaiting q) ∧ (OwnsCpu p ↔ OwnsCpu q)

theorem goto_awake {q : MutexPc τ} (h : Inv s) (hr : s.state s.current = .running)
    (hsame : SameLocks q (s.pc s.current))
    (hp : s.pc s.current ≠ .lockDisable ∧ s.pc s.current ≠ .lockSleep)
    (hn : Holds q → Holds (s.pc s.current)) (hq : ∀ u, q ≠ .unlockResume u) : Inv (s.goto q) :=
  h.move_awake (h.lock.stay hsame.1) (h.waiting.stay hsame.2.1) (h.cpu.stay hsame.2.2) hr hp hn hq

theorem exec_lockXchg (h : Inv s) (hp : s.pc s.current = .lockXchg) :
    Inv (if s.lock then s.goto .lockWaiting else { s with lock := true }.goto .lockHold) := by
  have hr := h.current_running hp
  split
  case isTrue =>
    apply h.goto_awake hr
    all_goals simp [hp, SameLocks, OwnsLock, OwnsWaiting, OwnsCpu, Holds]
  case isFalse hl =>
    have hlock := h.lock
    rw [eq_false_of_ne_true hl] at hlock
    apply h.move_awake (q := .lockHold) (hlock.acquire trivial)
      (h.waiting.stay (by simp [hp, OwnsWaiting])) (h.cpu.stay (by simp [hp, OwnsCpu])) hr
    all_goals simp [hp, Holds]

/-- `m_waitingTasksLock.lock()` of `lock()` and of `unlock()`. -/
theorem exec_waitingLock {yield owns : MutexPc τ} (h : Inv s) (hr : s.state s.current = .running)
    (hp : s.pc s.current ≠ .lockDisable ∧ s.pc s.current ≠ .lockSleep)
    (hyield : SameLocks yield (s.pc s.current)) (howns : OwnsWaiting owns)
    (hlock : OwnsLock owns ↔ OwnsLock (s.pc s.current))
    (hcpu : OwnsCpu owns ↔ OwnsCpu (s.pc s.current))
    (hn : ¬ Holds yield ∧ ¬ Holds owns)
    (hq : ∀ u, yield ≠ .unlockResume u ∧ owns ≠ .unlockResume u) :
    Inv (if s.waitingTasksLock then s.goto yield
      else { s with waitingTasksLock := true }.goto owns) := by
  split
  case isTrue =>
    exact h.goto_awake hr hyield hp (fun hy => absurd hy hn.1) fun u => (hq u).1
  case isFalse hl =>
    have hwaiting := h.waiting
    rw [eq_false_of_ne_true hl] at hwaiting
    exact h.move_awake (h.lock.stay hlock) (hwaiting.acquire howns) (h.cpu.stay hcpu) hr hp
      (fun hy => absurd hy hn.2) fun u => (hq u).2

theorem exec_unlockWord (h : Inv s) (hp : s.pc s.current = .unlockWord) :
    Inv ({ s with lock := false }.goto .unlockWaiting) := by
  apply h.move_awake (q := .unlockWaiting)
    (h.lock.release (by simp [hp, OwnsLock]) (by simp [OwnsLock]))
    (h.waiting.stay (by simp [hp, OwnsWaiting])) (h.cpu.stay (by simp [hp, OwnsCpu]))
    (h.running (by simp [hp, Parked]))
  all_goals simp [hp, Holds]

theorem exec_unlockRelease (h : Inv s) (hp : s.pc s.current = .unlockRelease) :
    Inv ({ s with waitingTasksLock := false }.goto .out) := by
  apply h.move_awake (q := .out) (h.lock.stay (by simp [hp, OwnsLock]))
    (h.waiting.release (by simp [hp, OwnsWaiting]) (by simp [OwnsWaiting]))
    (h.cpu.stay (by simp [hp, OwnsCpu])) (h.running (by simp [hp, Parked]))
  all_goals simp [hp, Holds]

/-- A step of the current task keeps the invariant. -/
theorem exec (h : Inv s) : Inv s.exec := by
  unfold Mutex.exec
  cases hp : s.pc s.current
  case lockXchg => exact h.exec_lockXchg hp
  case lockWaiting =>
    apply h.exec_waitingLock (h.running (by simp [hp, Parked]))
    all_goals simp [hp, SameLocks, OwnsLock, OwnsWaiting, OwnsCpu, Holds]
  case lockPush => exact h.exec_lockPush hp
  case lockDisable => exact h.exec_lockDisable hp
  case lockSleep => exact h.exec_lockSleep hp
  case lockRelease => exact h.exec_lockRelease hp
  case lockEnable => exact h.exec_lockEnable hp
  case lockHold => exact h.exec_lockHold hp
  case unlockHolder => exact h.exec_unlockHolder hp
  case unlockWord => exact h.exec_unlockWord hp
  case unlockWaiting =>
    apply h.exec_waitingLock (h.running (by simp [hp, Parked]))
    all_goals simp [hp, SameLocks, OwnsLock, OwnsWaiting, OwnsCpu, Holds]
  case unlockPop =>
    cases hw : s.waitingTasks with
    | nil =>
      apply h.goto_awake (h.running (by simp [hp, Parked]))
      all_goals simp [hp, SameLocks, OwnsLock, OwnsWaiting, OwnsCpu, Holds]
    | cons task tasks => exact h.exec_unlockPop hp hw
  case unlockResume task => exact h.exec_unlockResume hp
  case unlockRelease => exact h.exec_unlockRelease hp
  case lockWaitingYield | lockYield | unlockWaitingYield => exact h
  all_goals
    apply h.goto_awake (h.running (by simp [hp, Parked]))
    all_goals simp [hp, SameLocks, OwnsLock, OwnsWaiting, OwnsCpu, Holds]

omit [DecidableEq τ] in
theorem switch {next : τ} (h : Inv s) (hs : s.schedulable next) :
    Inv { s with current := next } := by
  obtain ⟨he, hnext⟩ : s.schedEnable = true ∧ s.state next = .running := by
    simpa [schedulable] using hs
  constructor
  case lock => exact h.lock
  case waiting => exact h.waiting
  case cpu => exact h.cpu
  case cpu_current =>
    intro t ht
    have := h.cpu.set_of_range t ht
    simp [he] at this
  case held => exact h.held
  case nodup => exact h.nodup
  case queued => exact h.queued
  case asleep =>
    have := h.asleep
    grind
  case awake => exact fun hne => absurd hnext hne
  case resuming => exact h.resuming

theorem yield {next : τ} (h : Inv s) (hy : afterYield (s.pc s.current) = some p)
    (hs : s.schedulable next) : Inv { s.goto p with current := next } := by
  have hsame : SameLocks p (s.pc s.current) := by
    cases hp : s.pc s.current
    all_goals
      simp only [hp, afterYield, reduceCtorEq, Option.some.injEq] at hy
      try simp [← hy, SameLocks, OwnsLock, OwnsWaiting, OwnsCpu]
  have hpark : s.pc s.current = .lockYield ∧ p = .lockXchg ∨
      ¬ Parked (s.pc s.current) ∧ s.pc s.current ≠ .lockDisable ∧ s.pc s.current ≠ .lockSleep := by
    cases hp : s.pc s.current
    all_goals simp_all [afterYield, Parked]
  have hn : ¬ Holds p ∧ ∀ u, p ≠ .unlockResume u := by
    cases hp : s.pc s.current
    all_goals
      simp only [hp, afterYield, reduceCtorEq, Option.some.injEq] at hy
      try simp [← hy, Holds]
  have h' := h.switch hs
  constructor
  case lock => exact h.lock.stay hsame.1
  case waiting => exact h.waiting.stay hsame.2.1
  case cpu => exact h.cpu.stay hsame.2.2
  case nodup => exact h.nodup
  all_goals
    have := h'.cpu_current
    have := h.held
    have := h.queued
    have := h.asleep
    have := h'.awake
    have := h.resuming
    grind [Parked, SameLocks, schedulable]

omit [DecidableEq τ] in
theorem not_parked_of_away (ha : Away p) : ¬ Parked p ∧ p ≠ .lockDisable ∧ p ≠ .lockSleep ∧
    p ≠ .lockYield ∧ p ≠ .lockXchg := by
  cases p <;> simp_all [Away, Parked]

theorem rest {x : TaskState} {next : τ} (h : Inv s) (ha : Away (s.pc s.current))
    (hs : s.schedulable next) (hne : next ≠ s.current) :
    Inv { s.setState s.current x with current := next } := by
  have hp := not_parked_of_away ha
  have h' := h.switch hs
  constructor
  case lock => exact h.lock
  case waiting => exact h.waiting
  case cpu => exact h.cpu
  case nodup => exact h.nodup
  all_goals
    have := h'.cpu_current
    have := h.held
    have := h.queued
    have := h.asleep
    have := h'.awake
    have := h.resuming
    grind [schedulable]

theorem wake {task : τ} (h : Inv s) (ha : Away (s.pc task)) : Inv (s.setState task .running) := by
  have hp := not_parked_of_away ha
  constructor
  case lock => exact h.lock
  case waiting => exact h.waiting
  case cpu => exact h.cpu
  case nodup => exact h.nodup
  all_goals
    have := h.cpu_current
    have := h.held
    have := h.queued
    have := h.asleep
    have := h.awake
    have := h.resuming
    grind

end Inv

theorem step_inv {i : Event τ} (h : Inv s) (hs : s.step i = some s') : Inv s' := by
  cases i with
  | exec =>
    simp only [step, Option.ite_none_right_eq_some, Option.some.injEq] at hs
    rw [← hs.2]
    exact h.exec
  | yield next =>
    simp only [step, Option.bind_eq_bind, Option.bind_eq_some_iff, Option.ite_none_right_eq_some,
      Option.some.injEq] at hs
    obtain ⟨p, hp, hsched, rfl⟩ := hs
    exact h.yield hp hsched
  | preempt next =>
    simp only [step, Option.ite_none_right_eq_some, Option.some.injEq] at hs
    rw [← hs.2]
    exact h.switch hs.1
  | rest state next =>
    simp only [step, Option.ite_none_right_eq_some, Option.some.injEq] at hs
    obtain ⟨⟨haway, hsched, hne⟩, rfl⟩ := hs
    exact h.rest haway hsched hne
  | wake task =>
    simp only [step, Option.ite_none_right_eq_some, Option.some.injEq] at hs
    obtain ⟨⟨haway, -⟩, rfl⟩ := hs
    exact h.wake haway

theorem inv_of_reachable {current : τ}
    (h : Run.Reachable step (fun _ _ => True) (init current) s) : Inv s :=
  h.invariant (inv_init current) fun _ _ _ hs _ hstep => step_inv hs hstep

/-- What the mutex promises in every state. -/
structure Safe (s : Mutex τ) : Prop where
  exclusive : ∀ t u, Holds (s.pc t) → Holds (s.pc u) → t = u
  heldBy : ∀ t, Holds (s.pc t) → s.heldBy = some t
  waiting : s.waitingTasksLock = false →
    s.waitingTasks.Nodup ∧ ∀ t ∈ s.waitingTasks, s.state t = .sleeping
  asserts : s.Asserts

omit [DecidableEq τ] in
theorem Inv.safe (h : Inv s) : Safe s where
  exclusive := by
    intro t u ht hu
    have hn := h.held t ht
    rw [h.held u hu, Option.some.injEq] at hn
    exact hn.symm
  heldBy := h.held
  waiting := by
    intro hw
    refine ⟨h.nodup, fun t ht => ?_⟩
    have hwaiting := h.waiting
    rw [hw] at hwaiting
    have hnot := hwaiting.not_range t
    rcases h.queued t ht with hp | hp | ⟨-, hs⟩
    · simp [hp, OwnsWaiting] at hnot
    · simp [hp, OwnsWaiting] at hnot
    · exact hs
  asserts := h.asserts

/-- The mutex is safe in every interleaving: one task holds it, `m_heldBy` names
that task, the waiting tasks sleep, and no assertion fails. -/
theorem mutex_safe (current : τ) (h : Run.Reachable step (fun _ _ => True) (init current) s) :
    Safe s :=
  (inv_of_reachable h).safe

/-- One task takes the mutex, the other one tries it and goes to sleep. -/
def contended : List (Event Bool) :=
  List.replicate 3 Event.exec ++ Event.preempt false :: List.replicate 8 .exec ++ [Event.yield true]

theorem mutex_safe_contended : ∃ s, contended.foldlM step (init true) = some s ∧
    s.heldBy = some true ∧ s.waitingTasks = [false] ∧ Safe s := by
  have hrun : (contended.foldlM step (init true)).map (fun s => (s.heldBy, s.waitingTasks)) =
      some (some true, [false]) := by decide
  obtain ⟨s, hs, heq⟩ := Option.map_eq_some_iff.mp hrun
  rw [Prod.mk.injEq] at heq
  have hreach : Run.Reachable step (fun _ _ => True) (init true) s := Run.reachable_of_foldlM hs
  exact ⟨s, hs, heq.1, heq.2, mutex_safe true hreach⟩

end Mutex

end Koerix
