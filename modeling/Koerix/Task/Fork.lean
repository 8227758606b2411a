import Koerix.Lib.Run
import Koerix.Sync.Cpu
import Koerix.Task.Context
import Mathlib.Algebra.GroupWithZero.Nat
import Mathlib.Data.List.Rotate

/-! # The context of a forked task

Tasks enter the kernel by interrupts and system calls; the scheduler switches
between them and keeps in `m_context` where the frame of a suspended task lies.
`fork` copies the frame that `m_context` of the running task points to. A failed
assertion is an undefined step.
-/

namespace Koerix

open IrqContext

/-- The kernel stack has `KERNEL_STACK_SIZE` bytes. -/
def kernelStackTop : ℕ := 8192 / 8

/-- The frame of a task that comes from user mode: `(IrqContext*)m_kernelStackTop - 1`. -/
def topFrame : ℕ := kernelStackTop - size

/-- `EXIT_ADDR`. -/
def exitAddr : UInt64 := 0xffff8000deadbeef

/-- The number of `sys_fork` in the table of system calls. -/
def sysFork : UInt64 := 12

/-- Where a task is with respect to the kernel entry. -/
inductive EntryPc
  /-- not created yet -/
  | unborn
  /-- in user mode -/
  | user
  /-- in the handler of an exception -/
  | trap
  /-- in a system call, between `sti()` and `setContext(ctx)` -/
  | entered (frame : IrqContext)
  /-- in `do_syscall` -/
  | syscall (frame : IrqContext)
  /-- `fork` has copied the context -/
  | forked
  deriving DecidableEq

/-- The tasks, their kernel stacks and the scheduler. -/
structure Kernel (τ : Type*) where
  /-- the words of the kernel stacks -/
  stack : τ → ℕ → UInt64
  /-- the frames that are in use, innermost first -/
  frames : τ → List ℕ
  /-- `m_context` -/
  context : τ → ℕ
  taskList : List τ
  cpu : Cpu τ EntryPc

namespace Kernel

variable {τ : Type*} [DecidableEq τ]

/-- The listed tasks are in user mode, one of them runs. -/
def init (stack : τ → ℕ → UInt64) (tasks : List τ) (current : τ) (state : τ → TaskState) :
    Kernel τ where
  stack := stack
  frames t := if t = current then [] else [topFrame]
  context _ := topFrame
  taskList := tasks
  cpu := ⟨true, current, state, fun t => if t ∈ tasks then .user else .unborn⟩

/-- `getNextTask`: rotate the list until its first task is ready. -/
def getNextTask (ready : τ → Bool) : ℕ → List τ → Option (τ × List τ)
  | 0, _ => none
  | n + 1, tasks => do
    let tasks := tasks.rotate 1
    let task ← tasks.head?
    if ready task then some (task, tasks) else getNextTask ready n tasks

/-- The task that the scheduler picks, with the rotated list. -/
def nextTask (s : Kernel τ) : Option (τ × List τ) :=
  getNextTask (fun t => s.cpu.state t == .running) s.taskList.length s.taskList

def setStack (s : Kernel τ) (task : τ) (m : ℕ → UInt64) : Kernel τ :=
  { s with stack := Function.update s.stack task m }

def setFrames (s : Kernel τ) (task : τ) (frames : List ℕ) : Kernel τ :=
  { s with frames := Function.update s.frames task frames }

def setContext (s : Kernel τ) (task : τ) (ctx : ℕ) : Kernel τ :=
  { s with context := Function.update s.context task ctx }

def goto (s : Kernel τ) (p : EntryPc) : Kernel τ := { s with cpu := s.cpu.goto p }

/-- Leave the kernel stack through the frame of a task: what lies above it stays in use. -/
def resume (s : Kernel τ) (task : τ) : Kernel τ :=
  { s.setFrames task ((s.frames task).filter (s.context task + size ≤ ·)) with
    cpu := { s.cpu with current := task } }

/-- The current task keeps its frame in `m_context`, the next one resumes. -/
def switchTo (s : Kernel τ) (ctx : ℕ) (next : τ) : Kernel τ :=
  let s := s.setFrames s.cpu.current (ctx :: s.frames s.cpu.current)
  (s.setContext s.cpu.current ctx).resume next

/-- `schedule(ctx)`. -/
def schedule (s : Kernel τ) (ctx : ℕ) : Option (Kernel τ) :=
  if s.cpu.schedEnable then do
    let (next, tasks) ← s.nextTask
    let s := { s with taskList := tasks }
    some (if next = s.cpu.current then s else s.switchTo ctx next)
  else some s

/-- Where an interrupt may push its frame. -/
def Pushable (s : Kernel τ) (ctx : ℕ) : Prop :=
  match s.frames s.cpu.current with
  | [] => ctx = topFrame
  | inner :: _ => ctx + size ≤ inner

instance (s : Kernel τ) (ctx : ℕ) : Decidable (s.Pushable ctx) :=
  match h : s.frames s.cpu.current with
  | [] => decidable_of_iff (ctx = topFrame) (by simp [Pushable, h])
  | inner :: _ => decidable_of_iff (ctx + size ≤ inner) (by simp [Pushable, h])

/-- The interrupt pushes a frame. -/
def push (s : Kernel τ) (ctx : ℕ) (frame : IrqContext) : Kernel τ :=
  s.setStack s.cpu.current (store (s.stack s.cpu.current) ctx frame)

/-- The constructor `UserTask(UserProcess&, const UserTask&)`. -/
def copyTask (s : Kernel τ) (child : τ) : Kernel τ :=
  let frame := load (s.stack s.cpu.current) (s.context s.cpu.current)
  let s := s.setStack child (store (s.stack child) topFrame { frame with rax := 0 })
  let s := s.setContext child topFrame
  let s := s.setFrames child [topFrame]
  { s with cpu := { s.cpu with pc := Function.update s.cpu.pc child .user } }

/-- What happens next on the CPU. -/
inductive Event (τ : Type*)
  /-- an interrupt that calls `schedule`, by the timer or by a yield -/
  | interrupt (frame : IrqContext) (ctx : ℕ)
  /-- the current task makes a system call -/
  | syscall (frame : IrqContext)
  /-- `sched::currentTask()->setContext(ctx)` -/
  | setContext
  /-- `fork` copies the context of the current task -/
  | fork (child : τ)
  /-- `sched::insertTask(task)` -/
  | insertTask (task : τ)
  /-- `ctx->rax = syscall(...)`, and the return to user mode -/
  | sysret (value : UInt64)
  /-- an exception in user mode, and the return from it -/
  | trap (frame : IrqContext)
  | iret
  /-- kernel code writes to the free part of its stack -/
  | write (a : ℕ) (value : UInt64)
  /-- a task goes to sleep, is woken up or killed -/
  | setState (task : τ) (state : TaskState)
  /-- `s_schedEnable = enable` -/
  | setEnable (enable : Bool)
  /-- `asyncExit` of another task -/
  | asyncExit (task : τ)

/-- The pushed frame is the one of the system call. -/
def enter (s : Kernel τ) (frame : IrqContext) (p : EntryPc) : Kernel τ :=
  ((s.push topFrame frame).setFrames s.cpu.current [topFrame]).goto p

def step (s : Kernel τ) : Event τ → Option (Kernel τ)
  | .interrupt frame ctx =>
    if s.Pushable ctx then (s.push ctx frame).schedule ctx else none
  | .syscall frame =>
    if s.cpu.pc s.cpu.current = .user then some (s.enter frame (.entered frame)) else none
  | .setContext =>
    match s.cpu.pc s.cpu.current with
    | .entered frame => some ((s.setContext s.cpu.current topFrame).goto (.syscall frame))
    | _ => none
  | .fork child =>
    match s.cpu.pc s.cpu.current with
    | .syscall frame =>
      if frame.rax = sysFork ∧ s.cpu.pc child = .unborn then some ((s.copyTask child).goto .forked)
      else none
    | _ => none
  | .insertTask task =>
    if s.cpu.schedEnable ∧ s.cpu.pc task ≠ .unborn ∧ task ∉ s.taskList then
      some { s with taskList := s.taskList ++ [task] }
    else none
  | .sysret value =>
    match s.cpu.pc s.cpu.current with
    | .syscall _ | .forked =>
      let m := Function.update (s.stack s.cpu.current) (topFrame + raxOffset) value
      some (((s.setStack s.cpu.current m).setFrames s.cpu.current []).goto .user)
    | _ => none
  | .trap frame => if s.cpu.pc s.cpu.current = .user then some (s.enter frame .trap) else none
  | .iret =>
    if s.cpu.pc s.cpu.current = .trap then some ((s.setFrames s.cpu.current []).goto .user)
    else none
  | .write a value =>
    match s.frames s.cpu.current with
    | inner :: _ =>
      if a < inner then
        some (s.setStack s.cpu.current (Function.update (s.stack s.cpu.current) a value))
      else none
    | [] => none
  | .setState task state => some { s with cpu := s.cpu.setState task state }
  | .setEnable enable => some { s with cpu := { s.cpu with schedEnable := enable } }
  | .asyncExit task =>
    if task ≠ s.cpu.current ∧ s.cpu.pc task ≠ .unborn then
      some (s.setStack task
        (Function.update (s.stack task) (s.context task + ripOffset) exitAddr))
    else none

/-- The frame of the kernel entry of a task lies untouched at the top of its stack. -/
structure Saved (s : Kernel τ) (t : τ) (frame : IrqContext) : Prop where
  mem : topFrame ∈ s.frames t
  le : ∀ a ∈ s.frames t, a ≤ topFrame
  load_eq : load (s.stack t) topFrame = frame
  suspended : t ≠ s.cpu.current → s.context t + size ≤ topFrame

/-- A system call that will copy the context. -/
def Forking (p : EntryPc) (frame : IrqContext) : Prop := p = .syscall frame ∧ frame.rax = sysFork

/-- The task is between `setContext` and the copy. -/
def forking : EntryPc → Bool
  | .syscall frame => frame.rax == sysFork
  | _ => false

theorem Forking.forking {p : EntryPc} {frame : IrqContext} (h : Forking p frame) :
    forking p = true := by
  rw [h.1, Kernel.forking, h.2]
  rfl

/-- The scheduler does not switch away from a task between `setContext` and the copy. -/
def Undisturbed (s : Kernel τ) : Event τ → Prop
  | .interrupt _ _ => forking (s.cpu.pc s.cpu.current) → s.cpu.schedEnable →
      ∀ next ∈ s.nextTask, next.1 = s.cpu.current
  | _ => True

instance (s : Kernel τ) : DecidablePred s.Undisturbed
  | .interrupt _ _ =>
    inferInstanceAs (Decidable (_ → _ → ∀ next ∈ s.nextTask, next.1 = s.cpu.current))
  | .syscall _ | .setContext | .fork _ | .insertTask _ | .sysret _ | .trap _ => isTrue trivial
  | .iret | .write _ _ | .setState _ _ | .setEnable _ | .asyncExit _ => isTrue trivial

/-- A task that is about to copy its context runs, and `m_context` points to its entry frame. -/
structure Inv (s : Kernel τ) : Prop where
  entered : ∀ t frame, s.cpu.pc t = .entered frame → s.Saved t frame
  forking : ∀ t frame, Forking (s.cpu.pc t) frame →
    s.Saved t frame ∧ t = s.cpu.current ∧ s.context t = topFrame

variable {s s' : Kernel τ} {t u child : τ} {frame : IrqContext} {ctx : ℕ} {p : EntryPc}

theorem inv_init (stack : τ → ℕ → UInt64) (tasks : List τ) (current : τ) (state : τ → TaskState) :
    Inv (init stack tasks current state) := by
  constructor
  · intro t frame ht
    simp only [init] at ht
    split_ifs at ht
  · intro t frame ht
    simp only [init, Forking] at ht
    split_ifs at ht <;> simp at ht

namespace Saved

omit [DecidableEq τ] in
theorem congr (h : s.Saved t frame) (hf : s'.frames t = s.frames t)
    (hs : load (s'.stack t) topFrame = load (s.stack t) topFrame)
    (hc : t ≠ s'.cpu.current → t ≠ s.cpu.current ∧ s'.context t = s.context t) :
    s'.Saved t frame where
  mem := hf ▸ h.mem
  le := hf ▸ h.le
  load_eq := hs.trans h.load_eq
  suspended := by
    intro hne
    rw [(hc hne).2]
    exact h.suspended (hc hne).1

omit [DecidableEq τ] in
theorem ctx_le (h : s.Saved s.cpu.current frame) (hp : s.Pushable ctx) :
    ctx + size ≤ topFrame := by
  unfold Pushable at hp
  have hmem := h.mem
  have hle := h.le
  cases hf : s.frames s.cpu.current with
  | nil => simp [hf] at hmem
  | cons inner rest =>
    rw [hf] at hp hle
    exact hp.trans (hle inner (by simp))

theorem push (h : s.Saved t frame) (hp : s.Pushable ctx) (c : IrqContext) :
    (s.push ctx c).Saved t frame := by
  refine h.congr rfl ?_ fun hne => ⟨hne, rfl⟩
  rcases eq_or_ne t s.cpu.current with rfl | hne
  · simp only [Kernel.push, setStack, Function.update_self]
    exact load_store_of_le (h.ctx_le hp)
  · simp [Kernel.push, setStack, hne]

theorem switchTo {next : τ} (h : s.Saved t frame) (hp : t = s.cpu.current → ctx + size ≤ topFrame)
    (hne : next ≠ s.cpu.current) : (s.switchTo ctx next).Saved t frame := by
  rcases eq_or_ne t s.cpu.current with rfl | hcur
  · have hctx := hp rfl
    constructor
    · simp [Kernel.switchTo, resume, setFrames, Kernel.setContext, hne.symm, h.mem]
    · have hle := h.le
      simp only [Kernel.switchTo, resume, setFrames, Kernel.setContext, hne.symm, ne_eq,
        not_false_eq_true, Function.update_of_ne, Function.update_self, List.mem_cons]
      rintro a (rfl | ha)
      · omega
      · exact hle a ha
    · exact h.load_eq
    · intro _
      simpa [Kernel.switchTo, resume, setFrames, Kernel.setContext] using hctx
  rcases eq_or_ne t next with rfl | hnext
  · have hctx := h.suspended hcur
    constructor
    · simp [Kernel.switchTo, resume, setFrames, Kernel.setContext, hcur, h.mem, hctx]
    · have hle := h.le
      simp only [Kernel.switchTo, resume, setFrames, Kernel.setContext, hcur, ne_eq,
        not_false_eq_true, Function.update_of_ne, Function.update_self, List.mem_filter]
      rintro a ⟨ha, -⟩
      exact hle a ha
    · exact h.load_eq
    · intro hself
      exact absurd rfl hself
  · apply h.congr
    · simp [Kernel.switchTo, resume, setFrames, Kernel.setContext, hnext, hcur]
    · rfl
    · intro _
      simp [Kernel.switchTo, resume, setFrames, Kernel.setContext, hcur]

end Saved

theorem schedule_cases (hs : s.schedule ctx = some s') :
    (∃ tasks, s' = { s with taskList := tasks }) ∨
    ∃ next tasks, s.cpu.schedEnable ∧ s.nextTask = some (next, tasks) ∧ next ≠ s.cpu.current ∧
      s' = { s with taskList := tasks }.switchTo ctx next := by
  unfold schedule at hs
  split_ifs at hs with he
  · simp only [Option.bind_eq_bind, Option.bind_eq_some_iff, Option.some.injEq, Prod.exists] at hs
    obtain ⟨next, tasks, hnext, rfl⟩ := hs
    by_cases heq : next = s.cpu.current
    · exact .inl ⟨tasks, by simp [heq]⟩
    · exact .inr ⟨next, tasks, he, hnext, heq, by simp [heq]⟩
  · rw [Option.some.injEq] at hs
    exact .inl ⟨s.taskList, hs.symm⟩

theorem Inv.interrupt (h : Inv s) (hp : s.Pushable ctx) (hok : s.Undisturbed (.interrupt frame ctx))
    (hs : (s.push ctx frame).schedule ctx = some s') : Inv s' := by
  rcases schedule_cases hs with ⟨tasks, rfl⟩ | ⟨next, tasks, he, hnext, hne, rfl⟩
  · constructor
    · intro t f ht
      exact ((h.entered t f ht).push hp frame).congr rfl rfl fun hcur => ⟨hcur, rfl⟩
    · intro t f ht
      obtain ⟨hsaved, hcur, hctx⟩ := h.forking t f ht
      exact ⟨(hsaved.push hp frame).congr rfl rfl fun hcur => ⟨hcur, rfl⟩, hcur, hctx⟩
  · constructor
    · intro t f ht
      have hsaved := h.entered t f ht
      refine Saved.switchTo (((hsaved.push hp frame).congr rfl rfl fun hcur => ⟨hcur, rfl⟩)) ?_ hne
      rintro rfl
      exact hsaved.ctx_le hp
    · intro t f ht
      obtain ⟨-, hcur, -⟩ := h.forking t f ht
      subst hcur
      exact absurd (hok (Forking.forking ht) he _ hnext) hne

omit [DecidableEq τ] in
theorem Inv.move (h : Inv s) (hcur : s'.cpu.current = s.cpu.current)
    (hrest : ∀ t, t ≠ s.cpu.current → s'.cpu.pc t = .user ∨
      s'.cpu.pc t = s.cpu.pc t ∧ s'.frames t = s.frames t ∧ s'.context t = s.context t ∧
        s'.stack t = s.stack t)
    (hself : ∀ frame, s'.cpu.pc s.cpu.current = .entered frame ∨
      Forking (s'.cpu.pc s.cpu.current) frame → s'.Saved s.cpu.current frame)
    (hctx : ∀ frame, Forking (s'.cpu.pc s.cpu.current) frame →
      s'.context s.cpu.current = topFrame) : Inv s' := by
  have hkeep : ∀ t, t ≠ s.cpu.current → s'.cpu.pc t ≠ .user → s'.cpu.pc t = s.cpu.pc t ∧
      ∀ f, s.Saved t f → s'.Saved t f := by
    intro t hne hu
    obtain hu' | ⟨hpc, hf, hc, hs⟩ := hrest t hne
    · exact absurd hu' hu
    · exact ⟨hpc, fun f hsaved => hsaved.congr hf (by rw [hs]) fun _ => ⟨hne, hc⟩⟩
  constructor
  · intro t f ht
    rcases eq_or_ne t s.cpu.current with rfl | hne
    · exact hself f (.inl ht)
    · obtain ⟨hpc, hsaved⟩ := hkeep t hne (by simp [ht])
      exact hsaved f (h.entered t f (hpc ▸ ht))
  · intro t f ht
    rcases eq_or_ne t s.cpu.current with rfl | hne
    · exact ⟨hself f (.inr ht), hcur.symm, hctx f ht⟩
    · obtain ⟨hpc, -⟩ := hkeep t hne (by simp [ht.1])
      exact absurd (h.forking t f (hpc ▸ ht)).2.1 hne

theorem Inv.enter (h : Inv s) (hp : p = .entered frame ∨ p = .trap) : Inv (s.enter frame p) := by
  apply h.move
  case hcur => rfl
  case hrest =>
    intro t hne
    right
    simp [Kernel.enter, push, setStack, setFrames, goto, hne]
  case hself =>
    intro f hf
    have hframe : f = frame := by
      rcases hp with rfl | rfl <;> simp_all [Kernel.enter, push, setStack, setFrames, goto, Forking]
    constructor
    · simp [Kernel.enter, push, setStack, setFrames, goto]
    · simp [Kernel.enter, push, setStack, setFrames, goto]
    · simp [Kernel.enter, push, setStack, setFrames, goto, load_store, hframe]
    · intro hne
      exact absurd rfl hne
  case hctx =>
    intro f hf
    rcases hp with rfl | rfl <;> simp_all [Kernel.enter, push, setStack, setFrames, goto, Forking]

theorem Inv.leave {m : ℕ → UInt64} {frames : List ℕ} (h : Inv s) (hp : p = .user ∨ p = .forked) :
    Inv (((s.setStack s.cpu.current m).setFrames s.cpu.current frames).goto p) := by
  apply h.move
  case hcur => rfl
  case hrest =>
    intro t hne
    right
    simp [setStack, setFrames, goto, hne]
  all_goals
    intro f hf
    rcases hp with rfl | rfl <;> simp_all [setStack, setFrames, goto, Forking]

theorem Inv.setContext (h : Inv s) (hp : s.cpu.pc s.cpu.current = .entered frame) :
    Inv ((s.setContext s.cpu.current topFrame).goto (.syscall frame)) := by
  apply h.move
  case hcur => rfl
  case hrest =>
    intro t hne
    right
    simp [Kernel.setContext, goto, hne]
  case hself =>
    intro f hf
    obtain ⟨rfl, -⟩ : frame = f ∧ f.rax = sysFork := by
      simpa [Kernel.setContext, goto, Forking] using hf
    exact (h.entered _ _ hp).congr rfl rfl fun hne => absurd rfl hne
  case hctx => simp [Kernel.setContext, goto]

theorem Inv.fork (h : Inv s) :
    Inv ((s.copyTask child).goto .forked) := by
  apply h.move
  case hcur => rfl
  case hrest =>
    intro t ht
    rcases eq_or_ne t child with rfl | hc
    · left
      simp [copyTask, setStack, Kernel.setContext, setFrames, goto, ht]
    · right
      simp [copyTask, setStack, Kernel.setContext, setFrames, goto, ht, hc]
  all_goals simp [copyTask, setStack, Kernel.setContext, setFrames, goto, Forking]

theorem Inv.write {a : ℕ} {w : UInt64} {inner : ℕ} {rest : List ℕ} (h : Inv s)
    (hf : s.frames s.cpu.current = inner :: rest) (ha : a < inner) :
    Inv (s.setStack s.cpu.current (Function.update (s.stack s.cpu.current) a w)) := by
  have hsaved : ∀ f, s.Saved s.cpu.current f →
      (s.setStack s.cpu.current (Function.update (s.stack s.cpu.current) a w)).Saved
        s.cpu.current f := by
    intro f hsaved
    have hle := hsaved.le inner (by simp [hf])
    refine hsaved.congr rfl ?_ fun hne => ⟨hne, rfl⟩
    simp only [setStack, Function.update_self]
    exact load_update_of_lt (ha.trans_le hle)
  apply h.move
  case hcur => rfl
  case hrest =>
    intro t hne
    right
    simp [setStack, hne]
  case hself =>
    rintro f (ht | ht)
    · exact hsaved f (h.entered _ _ ht)
    · exact hsaved f (h.forking _ _ ht).1
  case hctx => exact fun f hf => (h.forking _ f hf).2.2

/-- `asyncExit` writes to the frame of a suspended task, which lies below its entry frame. -/
theorem Inv.asyncExit (h : Inv s) (hne : u ≠ s.cpu.current) :
    Inv (s.setStack u (Function.update (s.stack u) (s.context u + ripOffset) exitAddr)) := by
  have hsaved : ∀ t f, s.Saved t f →
      (s.setStack u
        (Function.update (s.stack u) (s.context u + ripOffset) exitAddr)).Saved t f := by
    intro t f hsaved
    refine hsaved.congr rfl ?_ fun hne => ⟨hne, rfl⟩
    rcases eq_or_ne t u with rfl | htu
    · have hctx := hsaved.suspended hne
      simp only [setStack, Function.update_self]
      apply load_update_of_lt
      simp only [ripOffset]
      simp only [size] at hctx
      omega
    · simp [setStack, htu]
  constructor
  · exact fun t f ht => hsaved t f (h.entered t f ht)
  · exact fun t f ht => ⟨hsaved t f (h.forking t f ht).1, (h.forking t f ht).2⟩

omit [DecidableEq τ] in
theorem Inv.sched {tasks : List τ} {enable : Bool} {state : τ → TaskState} (h : Inv s) :
    Inv { s with taskList := tasks, cpu := ⟨enable, s.cpu.current, state, s.cpu.pc⟩ } where
  entered t f ht := (h.entered t f ht).congr rfl rfl fun hne => ⟨hne, rfl⟩
  forking t f ht := by
    obtain ⟨hsaved, hcur, hctx⟩ := h.forking t f ht
    exact ⟨hsaved.congr rfl rfl fun hne => ⟨hne, rfl⟩, hcur, hctx⟩

theorem step_inv {i : Event τ} (h : Inv s) (hok : s.Undisturbed i) (hs : s.step i = some s') :
    Inv s' := by
  cases i with
  | interrupt f ctx =>
    simp only [step, Option.ite_none_right_eq_some] at hs
    exact h.interrupt hs.1 hok hs.2
  | syscall f =>
    simp only [step, Option.ite_none_right_eq_some, Option.some.injEq] at hs
    rw [← hs.2]
    exact h.enter (.inl rfl)
  | setContext =>
    simp only [step] at hs
    split at hs
    case h_1 f hp =>
      rw [Option.some.injEq] at hs
      rw [← hs]
      exact h.setContext hp
    case h_2 => cases hs
  | fork child =>
    simp only [step] at hs
    split at hs
    case h_1 f hp =>
      rw [Option.ite_none_right_eq_some, Option.some.injEq] at hs
      rw [← hs.2]
      exact h.fork
    case h_2 => cases hs
  | insertTask task =>
    simp only [step, Option.ite_none_right_eq_some, Option.some.injEq] at hs
    rw [← hs.2]
    exact h.sched
  | sysret value =>
    simp only [step] at hs
    split at hs
    case h_1 | h_2 =>
      rw [Option.some.injEq] at hs
      rw [← hs]
      exact h.leave (.inl rfl)
    case h_3 => cases hs
  | trap f =>
    simp only [step, Option.ite_none_right_eq_some, Option.some.injEq] at hs
    rw [← hs.2]
    exact h.enter (.inr rfl)
  | iret =>
    simp only [step, Option.ite_none_right_eq_some, Option.some.injEq] at hs
    rw [← hs.2]
    have hleave : Inv (((s.setStack s.cpu.current (s.stack s.cpu.current)).setFrames
        s.cpu.current []).goto .user) := h.leave (.inl rfl)
    simpa [setStack] using hleave
  | write a value =>
    simp only [step] at hs
    split at hs
    case h_1 inner rest hf =>
      rw [Option.ite_none_right_eq_some, Option.some.injEq] at hs
      rw [← hs.2]
      exact h.write hf hs.1
    case h_2 => cases hs
  | setState task state =>
    simp only [step, Option.some.injEq] at hs
    rw [← hs]
    exact h.sched
  | setEnable enable =>
    simp only [step, Option.some.injEq] at hs
    rw [← hs]
    exact h.sched
  | asyncExit task =>
    simp only [step, Option.ite_none_right_eq_some, Option.some.injEq] at hs
    rw [← hs.2]
    exact h.asyncExit hs.1.1

/-- The context that a task starts with. -/
def initialContext (s : Kernel τ) (t : τ) : IrqContext := load (s.stack t) (s.context t)

/-- In a run in which no switch comes between `setContext` and the copy, the child starts with the
frame of the parent's system call and the return value 0. -/
theorem fork_context_of_undisturbed (stack : τ → ℕ → UInt64) (tasks : List τ) (current : τ)
    (state : τ → TaskState)
    (h : Run.Reachable step Undisturbed (init stack tasks current state) s)
    (hp : s.cpu.pc s.cpu.current = .syscall frame) (hs : s.step (.fork child) = some s') :
    s'.initialContext child = { frame with rax := 0 } := by
  have hinv : Inv s := h.invariant (inv_init stack tasks current state)
    fun _ _ _ hs hok hstep => step_inv hs hok hstep
  simp only [step, hp, Option.ite_none_right_eq_some, Option.some.injEq] at hs
  obtain ⟨⟨hrax, -⟩, rfl⟩ := hs
  obtain ⟨hsaved, -, hctx⟩ := hinv.forking _ frame ⟨hp, hrax⟩
  rw [← hsaved.load_eq, ← hctx]
  simp [initialContext, goto, copyTask, setStack, Kernel.setContext, setFrames, load_store]

/-- The registers of a task that calls `fork` in user mode. -/
def userFrame : IrqContext :=
  ⟨0, 0, 0, 0, 0, 0, 0, 0, 0, 0, 0, 0, 0, sysFork, 0, 0x80, 0, 0x100000, 0x1b, 0x202,
    0x7ffffffff000,
    0x23⟩

/-- The registers of a task that the timer interrupts in kernel mode. -/
def kernelFrame : IrqContext :=
  ⟨0, 0, 0, 0, 0, 0, 0, 0, 0, 0, 0, 0, 0, 1, 0, 32, 0, 0xffff800000100000, 0x08, 0x202,
    0xffff800000200000, 0x10⟩

theorem neZero_three : NeZero 3 := ⟨by decide⟩

attribute [local instance] neZero_three

/-- Two tasks in user mode; the third one does not exist yet. -/
def twoTasks : Kernel (Fin 3) := init (fun _ _ => 0) [0, 1] 0 fun _ => .running

/-- The task is switched away from before `setContext` only. -/
def undisturbedCalls : List (Event (Fin 3)) :=
  [.syscall userFrame, .interrupt kernelFrame 900, .interrupt userFrame topFrame, .setContext]

theorem fork_context_of_undisturbed_undisturbedCalls :
    ∃ s s', Run.guardedRun step Undisturbed twoTasks undisturbedCalls = some s ∧
      s.step (.fork 2) = some s' ∧ s'.initialContext 2 = { userFrame with rax := 0 } := by
  have hrun : (Run.guardedRun step Undisturbed twoTasks undisturbedCalls).map
      (fun s => (s.cpu.pc s.cpu.current, (s.step (.fork 2)).isSome)) =
        some (.syscall userFrame, true) := by decide_cbv
  obtain ⟨s, hs, heq⟩ := Option.map_eq_some_iff.mp hrun
  rw [Prod.mk.injEq, Option.isSome_iff_exists] at heq
  obtain ⟨hp, s', hs'⟩ := heq
  have hreach := Run.reachable_of_guardedRun hs
  exact ⟨s, s', hs, hs', fork_context_of_undisturbed _ _ _ _ hreach hp hs'⟩

/-- The task is switched away from between `setContext` and the copy. -/
def disturbedCalls : List (Event (Fin 3)) :=
  [.syscall userFrame, .setContext, .interrupt kernelFrame 900, .interrupt userFrame topFrame]

theorem not_forall_fork_context : ¬ ∀ (s s' : Kernel (Fin 3)) (frame : IrqContext) (child : Fin 3),
    Run.Reachable step (fun _ _ => True) twoTasks s → s.cpu.pc s.cpu.current = .syscall frame →
      s.step (.fork child) = some s' → s'.initialContext child = { frame with rax := 0 } := by
  have hrun : (disturbedCalls.foldlM step twoTasks).map
      (fun s => (s.cpu.pc s.cpu.current, (s.step (.fork 2)).map (·.initialContext 2))) =
        some (.syscall userFrame, some { kernelFrame with rax := 0 }) := by decide_cbv
  obtain ⟨s, hs, heq⟩ := Option.map_eq_some_iff.mp hrun
  rw [Prod.mk.injEq, Option.map_eq_some_iff] at heq
  obtain ⟨hp, s', hs', hctx⟩ := heq
  have hreach := Run.reachable_of_foldlM hs
  intro hall
  have := hall s s' userFrame 2 hreach hp hs'
  rw [hctx] at this
  exact absurd this (by decide)

end Kernel

end Koerix
