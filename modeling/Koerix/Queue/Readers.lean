import Koerix.Lib.Run
import Koerix.Queue.Buffer
import Koerix.Sync.Cpu
import Mathlib.Data.Fintype.Basic

/-! # Readers that sleep on the queue

The steps of `IQueue::read` and `IQueue::write` by any number of tasks, and
writes by an interrupt handler. `read` looks at `m_available` before it takes
the buffer lock, and a write may come in between. The buffer lock is exact here:
of the lock of an `IrqContextQueue`, which switches the interrupts off, that
leaves out a handler that comes inside `lock()`.
-/

namespace Koerix

/-- What a task does next. -/
inductive QueuePc (τ : Type*)
  /-- the task does not use the queue -/
  | out
  /-- `if (m_available == 0)` -/
  | readTest (len : ℕ)
  /-- `m_bufferLock.lock()` -/
  | readLock (len : ℕ)
  /-- `m_readSubscribers.push_back(sched::currentTask(), mem)` -/
  | readPush (len : ℕ)
  /-- `sleepAndUnlock`: `s_schedEnable = false` -/
  | readDisable (len : ℕ)
  /-- `sleep()` -/
  | readSleep (len : ℕ)
  /-- `lock->unlock()` -/
  | readRelease (len : ℕ)
  /-- `s_schedEnable = true` -/
  | readEnable (len : ℕ)
  /-- `sched::yield()` -/
  | readYield (len : ℕ)
  /-- `ScopedLock smtx { m_bufferLock }` of `read` -/
  | readScope (len : ℕ)
  /-- the loop of `read` with room for `len` more bytes -/
  | readLoop (len : ℕ)
  /-- the end of the scope in `read` -/
  | readUnlock
  /-- `ScopedLock smtx { m_bufferLock }` of `write` -/
  | writeScope (buffer : List UInt8)
  /-- the loop of `write` with these bytes left -/
  | writeLoop (buffer : List UInt8)
  /-- `wakeupSubscribers`: `m_readSubscribers.pop_front()` if the list is not empty -/
  | writeWake
  /-- `task->resume()` -/
  | writeResume (task : τ)
  /-- the end of the scope in `write` -/
  | writeUnlock
  deriving DecidableEq

/-- The queue, its buffer lock and the tasks. -/
structure Readers (τ : Type*) where
  queue : IQueue
  bufferLock : Bool
  readSubscribers : List τ
  cpu : Cpu τ (QueuePc τ)

namespace Readers

variable {τ : Type*} [DecidableEq τ]

def init (buffer : ℕ → UInt8) (current : τ) : Readers τ where
  queue := IQueue.init buffer
  bufferLock := false
  readSubscribers := []
  cpu := Cpu.init current .out

def goto (s : Readers τ) (p : QueuePc τ) : Readers τ := { s with cpu := s.cpu.goto p }

/-- Take the buffer lock and go on, once it is free. -/
def acquire (s : Readers τ) (p : QueuePc τ) : Option (Readers τ) :=
  if s.bufferLock then none else some ({ s with bufferLock := true }.goto p)

/-- `m_bufferLock.unlock()`. -/
def release (s : Readers τ) (p : QueuePc τ) : Option (Readers τ) :=
  if s.bufferLock then some ({ s with bufferLock := false }.goto p) else none

/-- `Task::resume`. -/
def resume (s : Readers τ) (task : τ) : Option (Readers τ) :=
  if s.cpu.state task = .sleeping ∧ s.cpu.current ≠ task then
    some { s with cpu := s.cpu.setState task .running }
  else none

/-- The next step of the current task, other than a yield. -/
def exec (s : Readers τ) : Option (Readers τ) :=
  match s.cpu.pc s.cpu.current with
  | .readTest len => some (s.goto (if s.queue.available = 0 then .readLock len else .readScope len))
  | .readLock len => s.acquire (.readPush len)
  | .readPush len =>
    some ({ s with readSubscribers := s.readSubscribers ++ [s.cpu.current] }.goto
      (.readDisable len))
  | .readDisable len =>
    some ({ s with cpu := { s.cpu with schedEnable := false } }.goto (.readSleep len))
  | .readSleep len =>
    if s.cpu.state s.cpu.current = .running then
      some ({ s with cpu := s.cpu.setState s.cpu.current .sleeping }.goto (.readRelease len))
    else none
  | .readRelease len => s.release (.readEnable len)
  | .readEnable len =>
    some ({ s with cpu := { s.cpu with schedEnable := true } }.goto (.readYield len))
  | .readScope len => s.acquire (.readLoop len)
  | .readLoop 0 => some (s.goto .readUnlock)
  | .readLoop (len + 1) =>
    if 0 < s.queue.available then
      s.queue.readByte.map fun (_, q) => { s with queue := q }.goto (.readLoop len)
    else some (s.goto .readUnlock)
  | .readUnlock => s.release .out
  | .writeScope buffer => s.acquire (.writeLoop buffer)
  | .writeLoop [] => some (s.goto .writeWake)
  | .writeLoop (c :: cs) =>
    (s.queue.writeByte c).map fun q => { s with queue := q }.goto (.writeLoop cs)
  | .writeWake =>
    match s.readSubscribers with
    | [] => some (s.goto .writeUnlock)
    | task :: tasks => some ({ s with readSubscribers := tasks }.goto (.writeResume task))
  | .writeResume task => (s.resume task).map (·.goto .writeWake)
  | .writeUnlock => s.release .out
  | .out | .readYield _ => none

/-- `wakeupSubscribers` without an interruption. -/
def wakeupSubscribers (s : Readers τ) : Option (Readers τ) :=
  s.readSubscribers.foldlM resume { s with readSubscribers := [] }

/-- What happens next on the CPU. -/
inductive Event (τ : Type*)
  /-- the current task calls `read` or `write` -/
  | call (c : IQueue.Call)
  /-- the current task makes a step -/
  | exec
  /-- the current task yields, and the scheduler picks a task -/
  | yield (next : τ)
  /-- the timer interrupts the current task, and the scheduler picks a task -/
  | preempt (next : τ)
  /-- an interrupt handler calls `write` -/
  | interrupt (buffer : List UInt8)

def step (s : Readers τ) : Event τ → Option (Readers τ)
  | .call c =>
    match s.cpu.pc s.cpu.current, c with
    | .out, .read len => some (s.goto (.readTest len))
    | .out, .write buffer => some (s.goto (.writeScope buffer))
    | _, _ => none
  | .exec => s.exec
  | .yield next =>
    match s.cpu.pc s.cpu.current with
    | .readYield len =>
      if s.cpu.schedulable next then
        some { s with cpu := { s.cpu.goto (.readScope len) with current := next } }
      else none
    | _ => none
  | .preempt next =>
    if s.cpu.schedulable next then some { s with cpu := { s.cpu with current := next } } else none
  | .interrupt buffer =>
    if s.bufferLock then none
    else (buffer.foldlM IQueue.writeByte s.queue).bind fun q =>
      { s with queue := q }.wakeupSubscribers

variable {s s' : Readers τ} {t : τ} {p : QueuePc τ}

/-- The task is in `write` and will still look at the subscribers. -/
def Writing : QueuePc τ → Prop
  | .writeScope _ | .writeLoop _ | .writeWake | .writeResume _ => True
  | _ => False

instance : DecidablePred (Writing (τ := τ)) := fun p =>
  match p with
  | .writeScope _ | .writeLoop _ | .writeWake | .writeResume _ => isTrue trivial
  | .out | .readTest _ | .readLock _ | .readPush _ | .readDisable _ | .readSleep _ => isFalse id
  | .readRelease _ | .readEnable _ | .readYield _ | .readScope _ | .readLoop _ => isFalse id
  | .readUnlock | .writeUnlock => isFalse id

/-- A subscriber sleeps although there are bytes, and no write will wake it up. -/
def Stranded (s : Readers τ) : Prop :=
  (∃ t ∈ s.readSubscribers, s.cpu.state t = .sleeping) ∧ 0 < s.queue.available ∧
    ∀ t, ¬ Writing (s.cpu.pc t)

/-- The task is about to subscribe. -/
def subscribing : QueuePc τ → Bool
  | .readPush _ => true
  | _ => false

/-- A reader that subscribes does so while the queue is empty, or before a write looks at the
subscribers. -/
def Timely (s : Readers τ) : Event τ → Prop
  | .exec => subscribing (s.cpu.pc s.cpu.current) →
      s.queue.available = 0 ∨ ∃ t, Writing (s.cpu.pc t)
  | _ => True

instance [Fintype τ] (s : Readers τ) : DecidablePred s.Timely
  | .exec => inferInstanceAs (Decidable (_ → _ ∨ ∃ t, Writing (s.cpu.pc t)))
  | .call _ | .yield _ | .preempt _ | .interrupt _ => isTrue trivial

/-- A write in progress looks at the subscribers of a queue that has bytes. -/
def Served (s : Readers τ) : Prop :=
  s.readSubscribers ≠ [] → 0 < s.queue.available → ∃ t, Writing (s.cpu.pc t)

omit [DecidableEq τ] in
theorem served_init (buffer : ℕ → UInt8) (current : τ) : Served (init buffer current) := by
  simp [Served, init]

namespace Served

omit [DecidableEq τ] in
theorem of_writing (h : Writing (s.cpu.pc t)) : Served s := fun _ _ => ⟨t, h⟩

omit [DecidableEq τ] in
theorem mono (hv : Served s) (hsub : s.readSubscribers = [] → s'.readSubscribers = [])
    (ha : s'.queue.available ≤ s.queue.available)
    (hpc : ∀ t, Writing (s.cpu.pc t) → Writing (s'.cpu.pc t)) : Served s' := by
  intro hne hpos
  obtain ⟨t, ht⟩ := hv (mt hsub hne) (hpos.trans_le ha)
  exact ⟨t, hpc t ht⟩

theorem writing_goto (hp : ¬ Writing (s.cpu.pc s.cpu.current)) :
    ∀ t, Writing (s.cpu.pc t) → Writing ((s.goto p).cpu.pc t) := by
  intro t ht
  have hne : t ≠ s.cpu.current := by
    rintro rfl
    exact hp ht
  simpa [goto, hne] using ht

theorem goto (hv : Served s) (hp : ¬ Writing (s.cpu.pc s.cpu.current)) : Served (s.goto p) :=
  hv.mono id le_rfl (writing_goto hp)

theorem acquire (hv : Served s) (hp : Writing (s.cpu.pc s.cpu.current) → Writing p)
    (hs : s.acquire p = some s') : Served s' := by
  simp only [Readers.acquire, Option.ite_none_left_eq_some, Option.some.injEq] at hs
  obtain ⟨-, rfl⟩ := hs
  by_cases hw : Writing (s.cpu.pc s.cpu.current)
  · exact of_writing (t := s.cpu.current) (by simpa [Readers.goto] using hp hw)
  · exact hv.mono id le_rfl (writing_goto hw)

theorem release (hv : Served s) (hp : ¬ Writing (s.cpu.pc s.cpu.current))
    (hs : s.release p = some s') : Served s' := by
  simp only [Readers.release, Option.ite_none_right_eq_some, Option.some.injEq] at hs
  obtain ⟨-, rfl⟩ := hs
  exact hv.mono id le_rfl (writing_goto hp)

theorem of_goto (hp : Writing p) : Served (s.goto p) :=
  of_writing (t := s.cpu.current) (by simpa [Readers.goto] using hp)

theorem readByte_le {q q' : IQueue} {c : UInt8} (h : q.readByte = some (c, q')) :
    q'.available ≤ q.available := by
  simp only [IQueue.readByte, Option.ite_none_right_eq_some, Option.some.injEq, Prod.mk.injEq] at h
  obtain ⟨-, -, rfl⟩ := h
  exact Nat.sub_le _ _

theorem exec (hv : Served s) (hok : s.Timely .exec) (hs : s.exec = some s') : Served s' := by
  unfold Readers.exec at hs
  cases hp : s.cpu.pc s.cpu.current <;> simp only [hp, reduceCtorEq, Option.some.injEq] at hs
  case readTest len =>
    rw [← hs]
    exact hv.goto (by simp [hp, Writing])
  case readLock | readScope => exact hv.acquire (by simp [hp, Writing]) hs
  case readPush len =>
    rw [← hs]
    intro _ hpos
    obtain hzero | ⟨t, ht⟩ := hok (by simp [hp, subscribing])
    · exact absurd hzero hpos.ne'
    · exact ⟨t, writing_goto (by simp [hp, Writing]) t ht⟩
  case readDisable | readEnable =>
    rw [← hs]
    exact hv.mono id le_rfl (writing_goto (by simp [hp, Writing]))
  case readSleep =>
    rw [Option.ite_none_right_eq_some, Option.some.injEq] at hs
    rw [← hs.2]
    exact hv.mono id le_rfl (writing_goto (by simp [hp, Writing]))
  case readRelease | readUnlock | writeUnlock => exact hv.release (by simp [hp, Writing]) hs
  case readLoop len =>
    cases len with
    | zero =>
      rw [Option.some.injEq] at hs
      rw [← hs]
      exact hv.goto (by simp [hp, Writing])
    | succ len =>
      dsimp only at hs
      split_ifs at hs
      · obtain ⟨⟨c, q⟩, hq, rfl⟩ := Option.map_eq_some_iff.mp hs
        exact hv.mono id (readByte_le hq) (writing_goto (by simp [hp, Writing]))
      · rw [Option.some.injEq] at hs
        rw [← hs]
        exact hv.goto (by simp [hp, Writing])
  case writeScope buffer => exact hv.acquire (by simp [Writing]) hs
  case writeLoop buffer =>
    cases buffer with
    | nil =>
      rw [Option.some.injEq] at hs
      rw [← hs]
      exact of_goto trivial
    | cons c cs =>
      obtain ⟨q, -, rfl⟩ := Option.map_eq_some_iff.mp hs
      exact of_goto trivial
  case writeWake =>
    cases hlist : s.readSubscribers with
    | nil =>
      simp only [hlist, Option.some.injEq] at hs
      rw [← hs]
      intro hne
      exact absurd hlist hne
    | cons task tasks =>
      simp only [hlist, Option.some.injEq] at hs
      rw [← hs]
      exact of_goto trivial
  case writeResume task =>
    obtain ⟨s₁, -, rfl⟩ := Option.map_eq_some_iff.mp hs
    exact of_goto trivial

theorem readSubscribers_foldlM {tasks : List τ} (hs : tasks.foldlM resume s = some s') :
    s'.readSubscribers = s.readSubscribers := by
  induction tasks generalizing s with
  | nil =>
    simp only [List.foldlM_nil, Option.pure_def, Option.some.injEq] at hs
    rw [hs]
  | cons task tasks ih =>
    simp only [List.foldlM_cons, Option.bind_eq_bind, Option.bind_eq_some_iff] at hs
    obtain ⟨s₁, h₁, hs⟩ := hs
    rw [ih hs]
    simp only [resume, Option.ite_none_right_eq_some, Option.some.injEq] at h₁
    rw [← h₁.2]

theorem step {i : Event τ} (hv : Served s) (hok : s.Timely i) (hs : s.step i = some s') :
    Served s' := by
  cases i with
  | call c =>
    simp only [Readers.step] at hs
    split at hs
    case h_1 hp =>
      rw [Option.some.injEq] at hs
      rw [← hs]
      exact hv.goto (by simp [hp, Writing])
    case h_2 hp =>
      rw [Option.some.injEq] at hs
      rw [← hs]
      exact hv.goto (by simp [hp, Writing])
    case h_3 => cases hs
  | exec => exact hv.exec hok hs
  | yield next =>
    simp only [Readers.step] at hs
    split at hs
    case h_1 len hp =>
      rw [Option.ite_none_right_eq_some, Option.some.injEq] at hs
      rw [← hs.2]
      exact hv.mono id le_rfl (writing_goto (by simp [hp, Writing]))
    case h_2 => cases hs
  | preempt next =>
    simp only [Readers.step, Option.ite_none_right_eq_some, Option.some.injEq] at hs
    rw [← hs.2]
    exact hv
  | interrupt buffer =>
    simp only [Readers.step, Option.ite_none_left_eq_some, Option.bind_eq_some_iff] at hs
    obtain ⟨-, q, -, hs⟩ := hs
    intro hne
    exact absurd (readSubscribers_foldlM hs) hne

end Served

/-- No reader is stranded in a run whose readers subscribe in time. -/
theorem not_stranded_of_timely (buffer : ℕ → UInt8) (current : τ)
    (h : Run.Reachable step Timely (init buffer current) s) : ¬ Stranded s := by
  have hv : Served s :=
    h.invariant (served_init buffer current) fun _ _ _ hv hok hstep => hv.step hok hstep
  rintro ⟨⟨t, ht, -⟩, hpos, hnone⟩
  obtain ⟨u, hu⟩ := hv (List.ne_nil_of_mem ht) hpos
  exact hnone u hu

/-- A reader goes to sleep on the empty queue, then a byte is written. -/
def timelyCalls : List (Event Bool) :=
  Event.call (.read 1) :: List.replicate 7 .exec ++
    [Event.yield true, .call (.write [7]), .exec, .exec]

theorem not_stranded_of_timely_timelyCalls :
    ∃ s, timelyCalls.foldlM step (init (fun _ => 0) false) = some s ∧
      s.queue.available = 1 ∧ s.readSubscribers = [false] ∧ ¬ Stranded s := by
  have hrun : (timelyCalls.foldlM step (init (fun _ => 0) false)).map
      (fun s => (s.queue.available, s.readSubscribers)) = some (1, [false]) := by decide_cbv
  obtain ⟨s, hs, heq⟩ := Option.map_eq_some_iff.mp hrun
  rw [Prod.mk.injEq] at heq
  have hreach : Run.Reachable step Timely (init (fun _ => 0) false) s := by
    refine Run.Guarded.reachable ?_ hs
    decide
  exact ⟨s, hs, heq.1, heq.2, not_stranded_of_timely _ _ hreach⟩

/-- A byte is written between the test of `m_available` and the `push_back`. -/
def strandedCalls : List (Event Bool) :=
  [Event.call (.read 1), .exec, .preempt true, .call (.write [7])] ++ List.replicate 5 Event.exec ++
    Event.preempt false :: List.replicate 6 .exec ++ [Event.yield true]

theorem not_forall_not_stranded : ¬ ∀ s : Readers Bool,
    Run.Reachable step (fun _ _ => True) (init (fun _ => 0) false) s → ¬ Stranded s := by
  have hrun : (strandedCalls.foldlM step (init (fun _ => 0) false)).map
      (fun s => (s.queue.available, s.readSubscribers, s.cpu.state false, s.cpu.pc false,
        s.cpu.pc true)) = some (1, [false], .sleeping, .readScope 1, .out) := by decide_cbv
  obtain ⟨s, hs, heq⟩ := Option.map_eq_some_iff.mp hrun
  simp only [Prod.mk.injEq] at heq
  obtain ⟨hav, hsub, hsleep, hfalse, htrue⟩ := heq
  have hreach : Run.Reachable step (fun _ _ => True) (init (fun _ => 0) false) s :=
    Run.reachable_of_foldlM hs
  intro hall
  apply hall s hreach
  refine ⟨⟨false, by simp [hsub], hsleep⟩, by simp [hav], fun t => ?_⟩
  cases t with
  | false => simp [hfalse, Writing]
  | true => simp [htrue, Writing]

end Readers

end Koerix
