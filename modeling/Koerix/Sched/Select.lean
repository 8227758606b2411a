import Koerix.Lib.Run
import Koerix.List.Basic
import Koerix.Sync.Cpu
import Mathlib.Data.List.Rotate

/-! # Selecting the next task

`getNextTask` rotates the list of tasks until a task at the front is schedulable. Asking a
task may wake it up, when its time has come. Tasks are selected in turn: one that stays
schedulable does not wait for longer than it takes to select every task once.
-/

namespace Koerix

/-- The part of a `Task` that `schedulable()` uses. -/
structure TaskInfo where
  state : TaskState
  wakeUpAt : UInt64
  deriving DecidableEq

/-- `Task::schedulable()`, at the time `s_timerTicks`. -/
def TaskInfo.schedulable (ticks : UInt64) (t : TaskInfo) : Bool × TaskInfo :=
  let t := if t.state = .sleeping ∧ t.wakeUpAt < ticks then ⟨.running, -1⟩ else t
  (t.state = .running, t)

/-- The task would be selected. -/
def TaskInfo.Ready (ticks : UInt64) (t : TaskInfo) : Prop := (t.schedulable ticks).1 = true

instance (ticks : UInt64) (t : TaskInfo) : Decidable (t.Ready ticks) :=
  inferInstanceAs (Decidable (_ = true))

theorem TaskInfo.schedulable_of_not_ready {ticks : UInt64} {t : TaskInfo} (h : ¬ t.Ready ticks) :
    t.schedulable ticks = (false, t) := by
  rw [Ready, Bool.not_eq_true] at h
  refine Prod.ext h ?_
  simp only [schedulable] at h ⊢
  split_ifs at h ⊢ with hw
  · cases h
  · rfl

theorem TaskInfo.ready_of_running {ticks : UInt64} {t : TaskInfo} (h : t.state = .running) :
    t.Ready ticks := by
  simp [Ready, schedulable, h]

/-- `s_taskList`, and the tasks. -/
structure Sched (τ : Type) where
  taskList : LinkedList τ
  task : τ → TaskInfo

namespace Sched

variable {τ : Type} [DecidableEq τ]

def taskCount (s : Sched τ) : ℕ := s.taskList.size

/-- `getNextTask()`, with a bound on the number of iterations. -/
def getNextTask (ticks : UInt64) : ℕ → Sched τ → Option (τ × Sched τ)
  | 0, _ => none
  | n + 1, s => do
    let l ← s.taskList.rotate
    let task ← l.front
    let (ready, info) := (s.task task).schedulable ticks
    let s : Sched τ := ⟨l, Function.update s.task task info⟩
    if ready then some (task, s) else getNextTask ticks n s

/-- A call of `getNextTask()` at some time, after the tasks have changed in any way. -/
def select (s : Sched τ) (c : UInt64 × (τ → TaskInfo)) : Option (Sched τ × τ) := do
  let (task, s) ← getNextTask c.1 s.taskCount { s with task := c.2 }
  return (s, task)

variable {s : Sched τ} {n y m : ℕ × τ} {ns pre post : List (ℕ × τ)} {ticks : UInt64} {k : ℕ}

/-- The tasks behind the front are asked one after the other, and the front last. -/
theorem getNextTask_eq (h : s.taskList.Represents (n :: ns)) (hns : ns ++ [n] = pre ++ y :: post)
    (hpre : ∀ m ∈ pre, ¬ (s.task m.2).Ready ticks) (hy : (s.task y.2).Ready ticks)
    (hk : pre.length < k) :
    ∃ l, getNextTask ticks k s =
        some (y.2, ⟨l, Function.update s.task y.2 ((s.task y.2).schedulable ticks).2⟩) ∧
      l.Represents (y :: post ++ pre) ∧
      ∀ b, b ∉ (n :: ns).map Prod.fst → l.heap b = s.taskList.heap b := by
  obtain ⟨k, rfl⟩ : ∃ j, k = j + 1 := ⟨k - 1, by omega⟩
  induction pre generalizing s n ns post k with
  | nil =>
    obtain ⟨l, hl, hrep, hheap⟩ := h.rotate
    rw [hns, List.nil_append] at hrep
    refine ⟨l, ?_, by simpa using hrep, hheap⟩
    rw [TaskInfo.Ready] at hy
    simp [getNextTask, hl, hrep.front_eq, hy]
  | cons z pre ih =>
    obtain ⟨l, hl, hrep, hheap⟩ := h.rotate
    rw [hns, List.cons_append] at hrep
    have hz := TaskInfo.schedulable_of_not_ready (hpre z List.mem_cons_self)
    have hlen : pre.length < k := by simpa using hk
    obtain ⟨k, rfl⟩ : ∃ j, k = j + 1 := ⟨k - 1, by omega⟩
    have hns' : pre ++ y :: post ++ [z] = pre ++ y :: (post ++ [z]) := by simp
    obtain ⟨l', hl', hrep', hheap'⟩ := ih (s := { s with taskList := l }) hrep hns'
      (fun m hm => hpre m (List.mem_cons_of_mem z hm)) hy k hlen
    refine ⟨l', ?_, by simpa using hrep', fun b hb => ?_⟩
    · rw [getNextTask]
      simp [hl, hrep.front_eq, hz, hl']
    · have hperm : (z :: (pre ++ y :: post)).Perm (n :: ns) := by
        rw [← List.cons_append, ← hns]
        exact List.perm_append_comm
      exact (hheap' b fun hm => hb ((hperm.map _).mem_iff.mp hm)).trans (hheap b hb)

theorem exists_getNextTask (h : s.taskList.Represents (n :: ns))
    (hready : ∃ m ∈ n :: ns, (s.task m.2).Ready ticks) :
    ∃ pre y post l, ns ++ [n] = pre ++ y :: post ∧ (∀ m ∈ pre, ¬ (s.task m.2).Ready ticks) ∧
      (s.task y.2).Ready ticks ∧ getNextTask ticks s.taskCount s =
        some (y.2, ⟨l, Function.update s.task y.2 ((s.task y.2).schedulable ticks).2⟩) ∧
      l.Represents (y :: post ++ pre) ∧
      ∀ b, b ∉ (n :: ns).map Prod.fst → l.heap b = s.taskList.heap b := by
  obtain ⟨m, hm, hmr⟩ := hready
  have hsome : ((ns ++ [n]).find? fun m => decide ((s.task m.2).Ready ticks)).isSome := by
    rw [List.find?_isSome]
    refine ⟨m, ?_, decide_eq_true hmr⟩
    rw [List.mem_append, List.mem_singleton]
    exact (List.mem_cons.mp hm).symm
  obtain ⟨y, hy⟩ := Option.isSome_iff_exists.mp hsome
  obtain ⟨hyr, pre, post, hsplit, hpre⟩ := List.find?_eq_some_iff_append.mp hy
  have hpre' : ∀ m ∈ pre, ¬ (s.task m.2).Ready ticks := by
    intro m hm
    simpa using hpre m hm
  have hlen : pre.length < s.taskCount := by
    have hlen := congrArg List.length hsplit
    simp only [List.length_append, List.length_cons, List.length_nil] at hlen
    rw [taskCount, h.size, List.length_cons]
    omega
  obtain ⟨l, hl, hrep, hheap⟩ := getNextTask_eq h hsplit hpre' (of_decide_eq_true hyr) hlen
  exact ⟨pre, y, post, l, hsplit, hpre', of_decide_eq_true hyr, hl, hrep, hheap⟩

/-- A task that stays schedulable comes closer to the front with every call that does not
select it. -/
theorem exists_outputs {u v : List (ℕ × τ)} {calls : List (UInt64 × (τ → TaskInfo))}
    (h : s.taskList.Represents (n :: ns)) (hm : ns ++ [n] = u ++ m :: v)
    (hready : ∀ c ∈ calls, (c.2 m.2).Ready c.1) :
    ∃ s' outs, Run.outputs select s calls = some (s', outs) ∧
      (u.length < calls.length → m.2 ∈ outs) := by
  induction calls generalizing s n ns u v with
  | nil => exact ⟨s, [], rfl, by simp⟩
  | cons c calls ih =>
    have hc := hready c List.mem_cons_self
    have hcs : ∀ d ∈ calls, (d.2 m.2).Ready d.1 :=
      fun d hd => hready d (List.mem_cons_of_mem c hd)
    have hmem : m ∈ n :: ns := by
      have : m ∈ ns ++ [n] := by simp [hm]
      simpa [or_comm] using this
    obtain ⟨pre, y, post, l, hsplit, hpre, hy, hl, hrep, -⟩ :=
      exists_getNextTask (s := { s with task := c.2 }) h ⟨m, hmem, hc⟩
    let s₁ : Sched τ := ⟨l, Function.update c.2 y.2 ((c.2 y.2).schedulable c.1).2⟩
    have hsel : select s c = some (s₁, y.2) := by
      have hcount : s.taskCount = taskCount { s with task := c.2 } := rfl
      simp [select, hcount, hl, s₁]
    -- either the call selects the task, or another one that was ahead of it
    have hcases : y = m ∨ ∃ u', u = pre ++ y :: u' ∧ post = u' ++ m :: v := by
      rcases List.append_eq_append_iff.mp (hm.symm.trans hsplit) with ⟨w, hw, hw'⟩ | ⟨w, hw, hw'⟩
      · cases w with
        | nil => exact Or.inl (List.cons.inj hw').1.symm
        | cons z w =>
          obtain ⟨rfl, -⟩ := List.cons.inj hw'
          exact absurd hc (hpre m (by simp [hw]))
      · cases w with
        | nil => exact Or.inl (List.cons.inj hw').1
        | cons z w =>
          obtain ⟨rfl, hpost⟩ := List.cons.inj hw'
          exact Or.inr ⟨w, hw, hpost⟩
    rw [List.cons_append] at hrep
    rcases hcases with rfl | ⟨u', rfl, rfl⟩
    · obtain ⟨s', outs, houts, -⟩ := ih (s := s₁) (u := post ++ pre) (v := []) hrep rfl hcs
      exact ⟨s', y.2 :: outs, by simp [Run.outputs, hsel, houts], fun _ => List.mem_cons_self⟩
    · obtain ⟨s', outs, houts, hlt⟩ := ih (s := s₁) (u := u') (v := v ++ pre ++ [y]) hrep
        (by simp) hcs
      refine ⟨s', y.2 :: outs, by simp [Run.outputs, hsel, houts], fun hlen => ?_⟩
      refine List.mem_cons_of_mem _ (hlt ?_)
      simp only [List.length_append, List.length_cons] at hlen
      omega

/-- Where a task of the list is schedulable, `getNextTask` returns the first schedulable one in
cyclic order behind the front and rotates the list up to it. A task that is schedulable at each
of as many calls as there are tasks is returned by one of them, whatever the other tasks do. -/
theorem getNextTask_roundRobin (h : s.taskList.Represents (n :: ns)) :
    (∀ ticks, (∃ m ∈ n :: ns, (s.task m.2).Ready ticks) → ∃ pre y post s',
      ns ++ [n] = pre ++ y :: post ∧ (∀ m ∈ pre, ¬ (s.task m.2).Ready ticks) ∧
      (s.task y.2).Ready ticks ∧ getNextTask ticks s.taskCount s = some (y.2, s') ∧
      s'.taskList.Represents (y :: post ++ pre) ∧ y :: post ++ pre ~r n :: ns) ∧
    ∀ m ∈ n :: ns, ∀ calls : List (UInt64 × (τ → TaskInfo)), calls.length = s.taskCount →
      (∀ c ∈ calls, (c.2 m.2).Ready c.1) →
      ∃ s' outs, Run.outputs select s calls = some (s', outs) ∧ m.2 ∈ outs := by
  constructor
  · intro ticks hready
    obtain ⟨pre, y, post, l, hsplit, hpre, hy, hl, hrep, -⟩ := exists_getNextTask h hready
    refine ⟨pre, y, post, _, hsplit, hpre, hy, hl, hrep, ?_⟩
    have hback : pre ++ y :: post ~r n :: ns := hsplit ▸ List.isRotated_append
    exact List.isRotated_append.trans hback
  · intro m hm calls hlen hready
    have hm' : m ∈ ns ++ [n] := by simpa [or_comm] using hm
    obtain ⟨u, v, huv⟩ := List.append_of_mem hm'
    obtain ⟨s', outs, houts, hlt⟩ := exists_outputs h huv hready
    refine ⟨s', outs, houts, hlt ?_⟩
    have hlen' := congrArg List.length huv
    simp only [List.length_append, List.length_cons, List.length_nil] at hlen'
    rw [hlen, taskCount, h.size, List.length_cons]
    omega

/-- Two tasks, both ready. -/
def twoTasks : Sched ℕ where
  taskList := ⟨fun a => if a = 0 then some ⟨5, some 1, none⟩ else
    if a = 1 then some ⟨6, none, some 0⟩ else none, 2, some 0, some 1⟩
  task _ := ⟨.running, -1⟩

theorem represents_twoTasks : twoTasks.taskList.Represents [(0, 5), (1, 6)] :=
  ⟨by decide, ⟨rfl, rfl, trivial⟩, rfl, rfl, rfl⟩

theorem getNextTask_roundRobin_twoTasks : ∃ s' outs, Run.outputs select twoTasks
    [(0, fun _ => ⟨.running, 0⟩), (1, fun _ => ⟨.sleeping, 0⟩)] = some (s', outs) ∧ 5 ∈ outs := by
  refine (getNextTask_roundRobin represents_twoTasks).2 (0, 5) (by decide) _ rfl ?_
  decide

end Sched

end Koerix
