import Koerix.Lib.Run
import Mathlib.Logic.Function.Basic

/-! # The FPU

The registers of the FPU, the trap flag and the contexts that user tasks keep
for them. The registers are only exchanged in `onFault`, when a task uses the
FPU with the trap set. A failed assertion and the use of a deleted context are
undefined.
-/

namespace Koerix

/-- How far a task is in its `exit()`. -/
inductive ExitStage
  | running
  /-- `fpu::Context::clear()` has run -/
  | cleared
  /-- `m_state` is `KILLED` -/
  | killed
  deriving DecidableEq

structure FpuTask where
  isUserTask : Bool
  stage : ExitStage
  deriving DecidableEq

/-- The tasks `τ` and the contents `R` of the FPU registers. -/
structure Fpu (τ R : Type) where
  fpuEnabled : Bool
  /-- the flag TS of CR0 -/
  trap : Bool
  regs : R
  fpuTask : Option τ
  currentTask : Option τ
  task : τ → Option FpuTask
  /-- what `m_fpuContext` of a user task holds -/
  context : τ → R

namespace Fpu

variable {τ R : Type} [DecidableEq τ]

/-- After `fpu::init()`, before the first task is created. -/
def init (detected : Bool) (regs : R) (context : τ → R) : Fpu τ R where
  fpuEnabled := detected
  trap := detected
  regs := regs
  fpuTask := none
  currentTask := none
  task _ := none
  context := context

def enableTrap (s : Fpu τ R) : Fpu τ R :=
  if s.fpuEnabled then { s with trap := true } else s

def clearTrap (s : Fpu τ R) : Fpu τ R :=
  if s.fpuEnabled then { s with trap := false } else s

/-- `sched::currentUserTask()`. -/
def currentUserTask (s : Fpu τ R) : Option τ := do
  let t ← s.currentTask
  let info ← s.task t
  if info.isUserTask then return t else none

/-- `getFpuContext().save()`. -/
def save (s : Fpu τ R) (t : τ) : Option (Fpu τ R) :=
  if s.task t = none then none else some { s with context := Function.update s.context t s.regs }

/-- `getFpuContext().restore()`. -/
def restore (s : Fpu τ R) (t : τ) : Option (Fpu τ R) :=
  if s.task t = none then none else some { s with regs := s.context t }

def onFault (s : Fpu τ R) : Option (Fpu τ R) := do
  let s := s.clearTrap
  let t ← s.currentUserTask
  if s.fpuTask = some t then return s
  else
    let s ← match s.fpuTask with
      | some u => s.save u
      | none => some s
    let s ← s.restore t
    return { s with fpuTask := some t }

/-- The state in which an FPU instruction of the current task is executed. -/
def faulted (s : Fpu τ R) : Option (Fpu τ R) :=
  if s.trap then s.onFault else some s

/-- The registers that an FPU instruction of the current task sees. -/
def sees (s : Fpu τ R) : Option R := s.faulted.map regs

/-- `sched::core::schedule`, when `getNextTask()` returns `next`. -/
def schedule (s : Fpu τ R) (next : τ) : Fpu τ R :=
  if s.currentTask = some next then s else { s.enableTrap with currentTask := some next }

/-- `fpu::Context::clear()`. -/
def clear (s : Fpu τ R) : Fpu τ R :=
  if s.fpuTask = s.currentTask then { s with fpuTask := none }.enableTrap else s

def setTask (s : Fpu τ R) (t : τ) (x : Option FpuTask) : Fpu τ R :=
  { s with task := Function.update s.task t x }

/-- The constructor of a task at the address `t`, with the context that it gets. -/
def create (s : Fpu τ R) (t : τ) (isUserTask : Bool) (context : R) : Fpu τ R :=
  { s.setTask t (some ⟨isUserTask, .running⟩) with
    context := Function.update s.context t context }

/-- What happens to the FPU and to the tasks. -/
inductive Event (τ R : Type)
  | schedule (next : τ)
  /-- the current task executes an FPU instruction that computes `f` on the registers -/
  | instruction (f : R → R)
  /-- a task is created; the memory of its context holds `context` -/
  | create (t : τ) (isUserTask : Bool) (context : R)
  /-- `UserTask(process, forkee)` with the current task as the forkee -/
  | fork (t : τ)
  /-- the first half of `UserTask::exit()` -/
  | clear
  /-- `Task::exit()` -/
  | exit
  /-- `delete userTask` in `checkForDeadTasks()` -/
  | delete (t : τ)

/-- The FPU instructions and the beginning of an exit. -/
def Event.byUser : Event τ R → Bool
  | .instruction _ | .clear => true
  | .schedule _ | .create _ _ _ | .fork _ | .exit | .delete _ => false

/-- `m_state = KILLED` by the current task. -/
def exit (s : Fpu τ R) : Option (Fpu τ R) := do
  let t ← s.currentTask
  let info ← s.task t
  return s.setTask t (some ⟨info.isUserTask, .killed⟩)

def step (s : Fpu τ R) : Event τ R → Option (Fpu τ R)
  | .schedule next => some (s.schedule next)
  | .instruction f => do
    let s ← s.faulted
    return { s with regs := f s.regs }
  | .create t isUserTask context => some (s.create t isUserTask context)
  | .fork t => do
    let forkee ← s.currentUserTask
    return s.create t true (s.context forkee)
  | .clear => do
    let t ← s.currentUserTask
    return s.clear.setTask t (some ⟨true, .cleared⟩)
  | .exit => s.exit
  | .delete t => some (s.setTask t none)

/-- The current task is the user task `t`, and has not begun to exit. -/
def Executing (s : Fpu τ R) (t : τ) : Prop :=
  s.currentTask = some t ∧ s.task t = some ⟨true, .running⟩

instance (s : Fpu τ R) (t : τ) : Decidable (s.Executing t) :=
  inferInstanceAs (Decidable (_ ∧ _))

/-- Tasks that are not killed can be scheduled, tasks are created where there is none, only tasks
in user mode use the FPU and fork, a user task runs `Context::clear()` before `Task::exit()`, and
killed tasks are deleted by others. -/
def Legal (s : Fpu τ R) : Event τ R → Prop
  | .schedule next => ∃ info ∈ s.task next, info.stage ≠ .killed
  | .instruction _ | .clear => ∃ t ∈ s.currentTask, s.Executing t
  | .create t _ _ => s.task t = none
  | .fork t => (∃ u ∈ s.currentTask, s.Executing u) ∧ s.task t = none
  | .exit => ∃ t ∈ s.currentTask,
      s.task t = some ⟨true, .cleared⟩ ∨ s.task t = some ⟨false, .running⟩
  | .delete t => (∃ info ∈ s.task t, info.stage = .killed) ∧ s.currentTask ≠ some t

instance (s : Fpu τ R) : ∀ e, Decidable (s.Legal e)
  | .schedule next => inferInstanceAs (Decidable (∃ info ∈ s.task next, info.stage ≠ .killed))
  | .instruction _ | .clear => inferInstanceAs (Decidable (∃ t ∈ s.currentTask, s.Executing t))
  | .create t _ _ => inferInstanceAs (Decidable (s.task t = none))
  | .fork t =>
    inferInstanceAs (Decidable ((∃ u ∈ s.currentTask, s.Executing u) ∧ s.task t = none))
  | .exit => inferInstanceAs (Decidable (∃ t ∈ s.currentTask,
      s.task t = some ⟨true, .cleared⟩ ∨ s.task t = some ⟨false, .running⟩))
  | .delete t => inferInstanceAs
      (Decidable ((∃ info ∈ s.task t, info.stage = .killed) ∧ s.currentTask ≠ some t))

variable {s s' : Fpu τ R} {t u : τ}

omit [DecidableEq τ] in
@[simp] theorem enableTrap_of_enabled (h : s.fpuEnabled = true) :
    s.enableTrap = { s with trap := true } := by
  rw [enableTrap, if_pos h]

omit [DecidableEq τ] in
@[simp] theorem clearTrap_of_enabled (h : s.fpuEnabled = true) :
    s.clearTrap = { s with trap := false } := by
  rw [clearTrap, if_pos h]

omit [DecidableEq τ] in
theorem Executing.currentUserTask (h : s.Executing t) : s.currentUserTask = some t := by
  simp [Fpu.currentUserTask, h.1, h.2]

end Fpu

end Koerix
