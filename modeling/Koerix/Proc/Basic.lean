import Koerix.Lib.Owner
import Koerix.Lib.Run
import Mathlib.Data.List.Basic

/-! # Processes and their tasks

The steps of the two constructors of `UserProcess`, of `addTask`, of
`UserProcess::exit` and of the clean-up in `checkForDeadProcesses`, by any
number of tasks in any order. A step that waits for a lock and a failed
assertion are undefined; the locks and lists of a deleted process fail the check
of their canary.
-/

namespace Koerix

/-- `UserProcess::ProcState`. -/
inductive ProcState
  | running
  | killed
  | toBeDeleted
  deriving DecidableEq

/-- The life of a task. -/
inductive Life
  | unborn
  /-- constructed, and not known to the scheduler -/
  | fresh
  | running
  | killed
  /-- removed from the scheduler and from its process, and deleted -/
  | removed
  deriving DecidableEq

/-- The construction of a process. -/
inductive Phase
  | unborn
  /-- the constructor runs, and has not put a task on `m_taskList` -/
  | started
  /-- the constructor runs, and has put a task on `m_taskList` -/
  | populated
  | constructed
  deriving DecidableEq

/-- What a task does next. -/
inductive ProcPc (π τ : Type*)
  /-- in user mode -/
  | user
  /-- in the kernel -/
  | kernel
  /-- `addTask`, called by the constructor if `first` -/
  | addLock (q : π) (first : Bool)
  | addTask (q : π) (first : Bool)
  | addPush (q : π) (first : Bool) (t : τ)
  | addInsert (q : π) (first : Bool) (t : τ)
  | addUnlock (q : π) (first : Bool)
  /-- `onAddProcess`, called by `UserProcess(const UserProcess&)` if `forked` -/
  | listLock (q : π) (forked : Bool)
  | listPush (q : π) (forked : Bool)
  | listUnlock (q : π) (forked : Bool)
  /-- the rest of `UserProcess(const UserProcess&)` -/
  | forkTask (q : π)
  | forkPush (q : π) (t : τ)
  | forkInsert (q : π) (t : τ)
  /-- `UserProcess::exit` -/
  | exitLock (q : π)
  | exitTest (q : π)
  | exitKill (q : π) (i : ℕ)
  | exitUnlock (q : π)
  | exitSelf
  /-- `checkForDeadProcesses` at the process with index `i`, and `checkForDeadTasks` at the
  task with index `j` -/
  | reapLock
  | reapProc (i : ℕ)
  | reapTasks (q : π) (i j : ℕ)
  | reapSize (q : π) (i : ℕ)
  | reapUnlock (q : π) (i : ℕ)
  | reapTest (q : π) (i : ℕ)
  | reapDone
  deriving DecidableEq

/-- `UserProcess`. -/
structure UserProcess (τ : Type*) where
  state : ProcState
  taskList : List τ
  taskListLock : Bool

/-- The processes `π`, the tasks `τ` and the other locks `l` of the kernel. -/
structure Procs (π τ l : Type*) where
  proc : π → UserProcess τ
  procList : List π
  procListLock : Bool
  lockOwner : l → Option τ
  /-- the other locks that a task holds -/
  held : τ → List l
  life : τ → Life
  /-- `asyncExit` has set the instruction pointer of the task -/
  doomed : τ → Bool
  /-- the process of a user task -/
  owner : τ → Option π
  pc : τ → ProcPc π τ
  phase : π → Phase
  /-- the tasks that were constructed for a process -/
  created : π → List τ
  deleted : π → Bool

namespace Procs

variable {π τ l : Type*} [DecidableEq π] [DecidableEq τ] [DecidableEq l]

/-- Kernel tasks only. -/
def init (tasks : List τ) : Procs π τ l where
  proc _ := ⟨.running, [], false⟩
  procList := []
  procListLock := false
  lockOwner _ := none
  held _ := []
  life t := if t ∈ tasks then .running else .unborn
  doomed _ := false
  owner _ := none
  pc t := if t ∈ tasks then .kernel else .user
  phase _ := .unborn
  created _ := []
  deleted _ := false

@[simp] def goto (s : Procs π τ l) (a : τ) (p : ProcPc π τ) : Procs π τ l :=
  { s with pc := Function.update s.pc a p }

@[simp] def setProc (s : Procs π τ l) (q : π) (p : UserProcess τ) : Procs π τ l :=
  { s with proc := Function.update s.proc q p }

@[simp] def setLife (s : Procs π τ l) (t : τ) (x : Life) : Procs π τ l :=
  { s with life := Function.update s.life t x }

@[simp] def setPhase (s : Procs π τ l) (q : π) (x : Phase) : Procs π τ l :=
  { s with phase := Function.update s.phase q x }

@[simp] def setTaskListLock (s : Procs π τ l) (q : π) (held : Bool) : Procs π τ l :=
  s.setProc q { s.proc q with taskListLock := held }

@[simp] def appendTask (s : Procs π τ l) (q : π) (t : τ) : Procs π τ l :=
  s.setProc q { s.proc q with taskList := (s.proc q).taskList ++ [t] }

/-- `m_taskListLock.lock()` of a process. -/
def lockTasks (s : Procs π τ l) (q : π) : Option (Procs π τ l) :=
  if s.deleted q ∨ (s.proc q).taskListLock then none else some (s.setTaskListLock q true)

/-- `m_taskListLock.unlock()`. -/
def unlockTasks (s : Procs π τ l) (q : π) : Option (Procs π τ l) :=
  if s.deleted q then none else some (s.setTaskListLock q false)

/-- `m_taskList.push_back(task)`. -/
def pushTask (s : Procs π τ l) (q : π) (t : τ) : Option (Procs π τ l) :=
  if s.deleted q then none else some (s.appendTask q t)

section

variable {s s' : Procs π τ l} {q : π} {t : τ}

omit [DecidableEq τ] [DecidableEq l]

theorem lockTasks_eq_some : s.lockTasks q = some s' ↔
    (s.deleted q = false ∧ (s.proc q).taskListLock = false) ∧ s' = s.setTaskListLock q true := by
  rw [lockTasks, Option.ite_none_left_eq_some, not_or, Bool.not_eq_true, Bool.not_eq_true,
    Option.some.injEq, eq_comm (a := s')]

theorem unlockTasks_eq_some : s.unlockTasks q = some s' ↔
    s.deleted q = false ∧ s' = s.setTaskListLock q false := by
  rw [unlockTasks, Option.ite_none_left_eq_some, Bool.not_eq_true, Option.some.injEq,
    eq_comm (a := s')]

theorem pushTask_eq_some : s.pushTask q t = some s' ↔
    s.deleted q = false ∧ s' = s.appendTask q t := by
  rw [pushTask, Option.ite_none_left_eq_some, Bool.not_eq_true, Option.some.injEq,
    eq_comm (a := s')]

end

/-- The place after a removal at index `i`: the loop goes on after the element before it, or
after the first element if there is none before. -/
def afterRemove {α : Type*} (xs : List α) (i : ℕ) : Option ℕ :=
  if i = 0 then if xs = [] then none else some 1 else some i

/-- The next step of a task. -/
@[simp] def exec (s : Procs π τ l) (a : τ) : Option (Procs π τ l) :=
  match s.pc a with
  | .user | .kernel | .addTask _ _ | .forkTask _ => none
  | .addLock q first =>
    if (s.proc q).state = .running then (s.lockTasks q).map (·.goto a (.addTask q first)) else none
  | .addPush q first t => (s.pushTask q t).map fun s =>
    (if first then s.setPhase q .populated else s).goto a (.addInsert q first t)
  | .addInsert q first t => some ((s.setLife t .running).goto a (.addUnlock q first))
  | .addUnlock q first =>
    (s.unlockTasks q).map (·.goto a (if first then .listLock q false else .kernel))
  | .listLock q forked =>
    if s.procListLock then none
    else some ({ s with procListLock := true }.goto a (.listPush q forked))
  | .listPush q forked =>
    some ({ s with procList := s.procList ++ [q] }.goto a (.listUnlock q forked))
  | .listUnlock q forked =>
    let s := { s with procListLock := false }
    some (if forked then s.goto a (.forkTask q) else (s.setPhase q .constructed).goto a .kernel)
  | .forkPush q t =>
    (s.pushTask q t).map fun s => (s.setPhase q .populated).goto a (.forkInsert q t)
  | .forkInsert q t => some (((s.setLife t .running).setPhase q .constructed).goto a .kernel)
  | .exitLock q => (s.lockTasks q).map (·.goto a (.exitTest q))
  | .exitTest q =>
    some (if (s.proc q).state = .running then
        (s.setProc q { s.proc q with state := .killed }).goto a (.exitKill q 0)
      else s.goto a (.exitUnlock q))
  | .exitKill q i =>
    match (s.proc q).taskList[i]? with
    | none => some (s.goto a (.exitUnlock q))
    | some t =>
      let s := if t = a then s else { s with doomed := Function.update s.doomed t true }
      some (s.goto a (.exitKill q (i + 1)))
  | .exitUnlock q =>
    (s.unlockTasks q).map (·.goto a (if s.owner a = some q then .exitSelf else .kernel))
  | .exitSelf => some (s.setLife a .killed)
  | .reapLock =>
    if s.procListLock then none else some ({ s with procListLock := true }.goto a (.reapProc 0))
  | .reapProc i =>
    match s.procList[i]? with
    | none => some (s.goto a .reapDone)
    | some q => (s.lockTasks q).map (·.goto a (.reapTasks q i 0))
  | .reapTasks q i j =>
    match (s.proc q).taskList[j]? with
    | none => some (s.goto a (.reapSize q i))
    | some t =>
      if s.life t = .killed then
        let tasks := (s.proc q).taskList.eraseIdx j
        let s := (s.setProc q { s.proc q with taskList := tasks }).setLife t .removed
        some (s.goto a ((afterRemove tasks j).elim (.reapSize q i) (.reapTasks q i)))
      else some (s.goto a (.reapTasks q i (j + 1)))
  | .reapSize q i =>
    some ((if (s.proc q).taskList = [] then s.setProc q { s.proc q with state := .toBeDeleted }
      else s).goto a (.reapUnlock q i))
  | .reapUnlock q i => (s.unlockTasks q).map (·.goto a (.reapTest q i))
  | .reapTest q i =>
    if (s.proc q).state = .toBeDeleted then
      -- `~Mutex()` asserts that nobody holds the lock
      if (s.proc q).taskListLock then none
      else
        let procs := s.procList.eraseIdx i
        let s := { s with deleted := Function.update s.deleted q true, procList := procs }
        some (s.goto a ((afterRemove procs i).elim .reapDone .reapProc))
    else some (s.goto a (.reapProc (i + 1)))
  | .reapDone => some ({ s with procListLock := false }.goto a .kernel)

/-- What happens next. -/
inductive Event (π τ l : Type*)
  /-- a task enters the kernel, and leaves it -/
  | enter (a : τ)
  | leave (a : τ)
  /-- a task takes and releases a lock of the kernel -/
  | acquire (a : τ) (x : l)
  | release (a : τ) (x : l)
  /-- a task calls a constructor of `UserProcess` -/
  | newProcess (a : τ) (q : π)
  | fork (a : τ) (q : π)
  /-- a task calls `addTask`, `UserProcess::exit` or `checkForDeadProcesses` -/
  | addTask (a : τ)
  | exit (a : τ) (q : π)
  | reap (a : τ)
  /-- a task goes on with what it has called -/
  | exec (a : τ)
  /-- `new UserTask(...)` -/
  | create (a t : τ)
  /-- a thread exits -/
  | threadExit (a : τ)
  /-- a task runs into `EXIT_ADDR` -/
  | die (a : τ)

/-- The task goes on in what it was doing when it is scheduled. -/
def Alive (s : Procs π τ l) (a : τ) : Prop := s.life a = .running ∧ s.doomed a = false

instance (s : Procs π τ l) (a : τ) : Decidable (s.Alive a) := inferInstanceAs (Decidable (_ ∧ _))

/-- A task for a process comes into being. -/
def createTask (s : Procs π τ l) (a t : τ) (q : π) (p : ProcPc π τ) : Option (Procs π τ l) :=
  if s.life t = .unborn then
    some ({ s.setLife t .fresh with
      owner := Function.update s.owner t (some q)
      created := Function.update s.created q (s.created q ++ [t]) }.goto a p)
  else none

/-- The task runs code of the kernel that takes and releases locks. -/
def mayLock : ProcPc π τ → Bool
  | .user | .exitLock _ | .exitTest _ | .exitKill _ _ | .exitUnlock _ | .exitSelf => false
  | _ => true

/-- The task that makes a step. -/
def Event.actor : Event π τ l → τ
  | .enter a | .leave a | .acquire a _ | .release a _ | .newProcess a _ | .fork a _ => a
  | .addTask a | .exit a _ | .reap a | .exec a | .create a _ | .threadExit a | .die a => a

/-- A call or a step of a task that is alive. -/
def act (s : Procs π τ l) : Event π τ l → Option (Procs π τ l)
  | .enter a => if s.pc a = .user then some (s.goto a .kernel) else none
  | .leave a => if s.pc a = .kernel ∧ s.held a = [] then some (s.goto a .user) else none
  | .acquire a x =>
    if mayLock (s.pc a) ∧ s.lockOwner x = none then
      some { s with
        lockOwner := Function.update s.lockOwner x (some a)
        held := Function.update s.held a (x :: s.held a) }
    else none
  | .release a x =>
    if mayLock (s.pc a) ∧ x ∈ s.held a then
      some { s with
        lockOwner := Function.update s.lockOwner x none
        held := Function.update s.held a ((s.held a).erase x) }
    else none
  | .newProcess a q =>
    if s.pc a = .kernel ∧ s.phase q = .unborn then
      some ((s.setPhase q .started).goto a (.addLock q true))
    else none
  | .fork a q =>
    if s.pc a = .kernel ∧ (s.owner a).isSome ∧ s.phase q = .unborn then
      some ((s.setPhase q .started).goto a (.listLock q true))
    else none
  | .addTask a =>
    if s.pc a = .kernel then (s.owner a).map fun q => s.goto a (.addLock q false) else none
  | .exit a q =>
    if (s.pc a = .user ∨ s.pc a = .kernel) ∧ s.phase q ≠ .unborn ∧ s.deleted q = false then
      some (s.goto a (.exitLock q))
    else none
  | .reap a => if s.pc a = .kernel then some (s.goto a .reapLock) else none
  | .exec a => s.exec a
  | .create a t =>
    match s.pc a with
    | .addTask q first => s.createTask a t q (.addPush q first t)
    | .forkTask q => s.createTask a t q (.forkPush q t)
    | _ => none
  | .threadExit a =>
    if s.pc a = .user ∧ (s.owner a).isSome then some (s.setLife a .killed) else none
  | .die _ => none

def step (s : Procs π τ l) : Event π τ l → Option (Procs π τ l)
  | .die a =>
    if s.life a = .running ∧ s.doomed a = true then some (s.setLife a .killed) else none
  | i => if s.Alive i.actor then s.act i else none

end Procs

end Koerix
