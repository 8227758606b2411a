import Mathlib.Logic.Function.Basic

/-! # Tasks on one CPU

The scheduler's part of the state: which task runs, the states of the tasks and
the control points at which they stand.
-/

namespace Koerix

/-- `Task::TaskState`. -/
inductive TaskState
  | running
  | sleeping
  | killed
  deriving DecidableEq, Repr

/-- Tasks `τ` that stand at control points `π`. -/
structure Cpu (τ π : Type*) where
  schedEnable : Bool
  current : τ
  state : τ → TaskState
  pc : τ → π

namespace Cpu

variable {τ π : Type*} [DecidableEq τ]

/-- All tasks are ready. -/
def init (current : τ) (start : π) : Cpu τ π := ⟨true, current, fun _ => .running, fun _ => start⟩

def goto (c : Cpu τ π) (p : π) : Cpu τ π := { c with pc := Function.update c.pc c.current p }

/-- `m_state = state` of a task. -/
def setState (c : Cpu τ π) (task : τ) (state : TaskState) : Cpu τ π :=
  { c with state := Function.update c.state task state }

/-- The scheduler may switch to the task. -/
def schedulable (c : Cpu τ π) (next : τ) : Bool := c.schedEnable && c.state next == .running

@[simp] theorem goto_pc (c : Cpu τ π) (p : π) (t : τ) :
    (c.goto p).pc t = if t = c.current then p else c.pc t := by
  simp [goto, Function.update_apply]

@[simp] theorem goto_state (c : Cpu τ π) (p : π) : (c.goto p).state = c.state := rfl

@[simp] theorem goto_current (c : Cpu τ π) (p : π) : (c.goto p).current = c.current := rfl

@[simp] theorem setState_pc (c : Cpu τ π) (task : τ) (x : TaskState) :
    (c.setState task x).pc = c.pc := rfl

@[simp] theorem setState_current (c : Cpu τ π) (task : τ) (x : TaskState) :
    (c.setState task x).current = c.current := rfl

@[simp] theorem setState_state (c : Cpu τ π) (task : τ) (x : TaskState) (t : τ) :
    (c.setState task x).state t = if t = task then x else c.state t := by
  simp [setState, Function.update_apply]

end Cpu

end Koerix
