import Mathlib.Algebra.Group.Nat.Defs
import Koerix.Sched.Dispatch

/-! # Listing the tasks

`get_sched_task_info` gives away one task at a time, and the thread id of the one behind it in
the list. The list is rotated between the calls, but whoever calls is at the front of it, so
that the list is the same at each call. The end of the list is then met after every task has
been given away once.
-/

namespace Koerix

/-- Thread ids are what `getNewTid()` has returned, which counts from 1. -/
def Tid : Type := { n : ℕ // 0 < n ∧ n < 2 ^ 64 - 1 }

/-- `sched_task_info_t`. -/
structure SchedTaskInfo where
  tid : ℕ
  state : TaskState
  deriving DecidableEq

/-- `(size_t)-1`. -/
def lastTid : ℕ := 2 ^ 64 - 1

namespace Sched

variable {τ : Type}

/-- The system call `get_sched_task_info(tid, info)`: the information and the returned value. -/
def getSchedTaskInfo (tidOf : τ → Tid) (s : Sched τ) (tid : ℕ) : Option (SchedTaskInfo × ℕ) := do
  let found ← s.taskList.findFrom (fun t => (tidOf t).1 = tid) s.taskList.size s.taskList.first
  let found := if found = none then s.taskList.first else found
  let e ← s.taskList.load found
  let info : SchedTaskInfo := ⟨(tidOf e.item).1, (s.task e.item).state⟩
  if e.next.isSome then
    let e' ← s.taskList.load e.next
    return (info, (tidOf e'.item).1)
  else return (info, lastTid)

variable {tidOf : τ → Tid} {s : Sched τ} {u v ns : List (ℕ × τ)} {e : ℕ × τ}

/-- The call at the task `e`: the information is about `e`, and the returned value names the
task behind it. -/
theorem getSchedTaskInfo_eq (h : s.taskList.Represents (u ++ e :: v))
    (hnodup : ((u ++ e :: v).map fun n => (tidOf n.2).1).Nodup) :
    s.getSchedTaskInfo tidOf (if u = [] then 0 else (tidOf e.2).1) =
      some (⟨(tidOf e.2).1, (s.task e.2).state⟩, v.head?.elim lastTid fun n => (tidOf n.2).1) := by
  have hload : s.taskList.load (some e.1) = some ⟨e.2, DNode.headOr none v, DNode.lastOr none u⟩ :=
    h.heap_eq
  -- thread id 0 does not exist, and then the search is replaced by the first task
  have hfound : ∃ found, s.taskList.findFrom
      (fun t => (tidOf t).1 = if u = [] then 0 else (tidOf e.2).1) s.taskList.size
        s.taskList.first = some found ∧
      (if found = none then s.taskList.first else found) = some e.1 := by
    split_ifs with hu
    · subst hu
      refine ⟨none, h.findFrom_first_eq_none fun n _ he => ?_, ?_⟩
      · exact absurd he (tidOf n.2).2.1.ne'
      · rw [if_pos rfl, h.first]
        rfl
    · refine ⟨some e.1, h.findFrom_first rfl fun n hn he => ?_, if_neg (by simp)⟩
      rw [List.map_append, List.map_cons, List.nodup_append] at hnodup
      exact hnodup.2.2 _ (List.mem_map_of_mem hn) _ (by simp) he
  obtain ⟨found, hf, hfe⟩ := hfound
  rw [getSchedTaskInfo, hf]
  simp only [Option.bind_eq_bind, Option.bind_some, hfe, hload]
  cases v with
  | nil => rfl
  | cons n v =>
    have hn : s.taskList.load (some n.1) =
        some ⟨n.2, DNode.headOr none v, DNode.lastOr none (u ++ [e])⟩ := by
      rw [List.append_cons u e] at h
      exact h.heap_eq
    simp [hn]

end Sched

/-- The processor, and the variables of `print_htop()`. -/
structure Listing (τ : Type) extends Dispatch τ where
  nextTid : ℕ
  infos : List SchedTaskInfo
  finished : Bool

namespace Listing

variable {τ : Type}

/-- What happens next. -/
inductive Event (τ : Type)
  /-- the timer counts -/
  | tick
  /-- a timer interrupt, or `yield()` of the current task -/
  | schedule
  /-- a task other than the idle task changes its state -/
  | change (t : τ) (info : TaskInfo)
  /-- the current task goes on -/
  | call

/-- The client, when it is the current task, makes its next call. -/
def call (tidOf : τ → Tid) (s : Listing τ) : Option (Listing τ) := do
  if s.finished then some s
  else
    let (info, next) ← s.getSchedTaskInfo tidOf s.nextTid
    return { s with
      nextTid := next
      infos := s.infos ++ [info]
      finished := next = lastTid }

def step [DecidableEq τ] (client idle : τ) (tidOf : τ → Tid) (s : Listing τ) :
    Event τ → Option (Listing τ)
  | .tick => some { s with ticks := s.ticks + 1 }
  | .schedule => s.toDispatch.schedule.map fun d => { s with toDispatch := d }
  | .change t info =>
    if t ≠ idle then some { s with task := Function.update s.task t info } else some s
  | .call => if s.current = some client then s.call tidOf else some s

/-- Before the first call. -/
def start (s : Dispatch τ) : Listing τ := { s with nextTid := 0, infos := [], finished := false }

/-- The tasks `u` have been given away, and the tasks `v` come next. -/
def Cursor (tidOf : τ → Tid) (s : Listing τ) (u : List (ℕ × τ)) : List (ℕ × τ) → Prop
  | [] => s.finished = true
  | e :: _ => s.finished = false ∧ s.nextTid = if u = [] then 0 else (tidOf e.2).1

structure Inv (client idle : τ) (tidOf : τ → Tid) (s : Listing τ) (order : List (ℕ × τ)) :
    Prop where
  seated : s.Seated order
  root : (order.map Prod.snd).head? = some client
  nodup : (order.map fun n => (tidOf n.2).1).Nodup
  idle_mem : idle ∈ order.map Prod.snd
  running : (s.task idle).state = .running
  cursor : ∃ u v, order = u ++ v ∧ s.infos.map SchedTaskInfo.tid = u.map (fun n => (tidOf n.2).1) ∧
    Cursor tidOf s u v

variable {client idle : τ} {tidOf : τ → Tid} {s : Listing τ} {order u v : List (ℕ × τ)} {e : ℕ × τ}

namespace Inv

theorem represents (h : Inv client idle tidOf s order) (hc : s.current = some client) :
    s.taskList.Represents order := by
  have hroot := h.root
  have hnodup : (order.map Prod.snd).Nodup := by
    have hnodup := h.nodup
    rw [← Function.comp_def (fun t => (tidOf t).1) Prod.snd, ← List.map_map] at hnodup
    exact hnodup.of_map _
  have hseated := h.seated
  cases order with
  | nil => cases hroot
  | cons n ns =>
    obtain ⟨a, t⟩ := n
    obtain rfl : t = client := by simpa using hroot
    exact hseated.represents hnodup hc

theorem exists_ready (h : Inv client idle tidOf s order) :
    ∃ m ∈ order, (s.task m.2).Ready s.ticks := by
  obtain ⟨m, hm, rfl⟩ := List.mem_map.mp h.idle_mem
  exact ⟨m, hm, TaskInfo.ready_of_running h.running⟩

theorem call (h : Inv client idle tidOf s order) (hc : s.current = some client) :
    ∃ s', s.call tidOf = some s' ∧ Inv client idle tidOf s' order := by
  obtain ⟨u, v, rfl, hinfos, hcur⟩ := h.cursor
  cases v with
  | nil =>
    have hfin : s.finished = true := hcur
    exact ⟨s, by simp [Listing.call, hfin], h⟩
  | cons e v =>
    obtain ⟨hfin, hnext⟩ := hcur
    have hcall := Sched.getSchedTaskInfo_eq (h.represents hc) h.nodup
    rw [← hnext] at hcall
    let next := v.head?.elim lastTid fun n => (tidOf n.2).1
    let s' : Listing τ := { s with
      nextTid := next
      infos := s.infos ++ [⟨(tidOf e.2).1, (s.task e.2).state⟩]
      finished := next = lastTid }
    refine ⟨s', by simp [Listing.call, hfin, hcall, s', next], h.seated, h.root, h.nodup,
      h.idle_mem, h.running, u ++ [e], v, by simp, by simp [hinfos, s'], ?_⟩
    cases v with
    | nil => simp [Cursor, s', next]
    | cons n v =>
      have hn : (tidOf n.2).1 ≠ lastTid := (tidOf n.2).2.2.ne
      simp [Cursor, hn, s', next]

variable [DecidableEq τ]

theorem schedule (h : Inv client idle tidOf s order) :
    ∃ s', s.step client idle tidOf .schedule = some s' ∧ Inv client idle tidOf s' order := by
  obtain ⟨d, hd, hsch⟩ := h.seated.schedule h.exists_ready
  have hidle : d.task idle = s.task idle := hsch.task_eq idle (by rw [h.running]; decide)
  refine ⟨{ s with toDispatch := d }, by simp [step, hd], hsch.seated, h.root, h.nodup, h.idle_mem,
    ?_, h.cursor⟩
  rw [← h.running]
  exact congrArg _ hidle

theorem step (h : Inv client idle tidOf s order) (i : Event τ) :
    ∃ s', s.step client idle tidOf i = some s' ∧ Inv client idle tidOf s' order := by
  cases i with
  | tick => exact ⟨_, rfl, h.seated, h.root, h.nodup, h.idle_mem, h.running, h.cursor⟩
  | schedule => exact h.schedule
  | change t info =>
    by_cases ht : t ≠ idle
    · refine ⟨_, if_pos ht, h.seated, h.root, h.nodup, h.idle_mem, ?_, h.cursor⟩
      rw [← h.running]
      exact congrArg _ (Function.update_of_ne ht.symm ..)
    · exact ⟨s, if_neg ht, h⟩
  | call =>
    by_cases hc : s.current = some client
    · obtain ⟨s', hs', h'⟩ := h.call hc
      exact ⟨s', (if_pos hc).trans hs', h'⟩
    · exact ⟨s, if_neg hc, h⟩

theorem run (h : Inv client idle tidOf s order) (events : List (Event τ)) :
    ∃ s', events.foldlM (Listing.step client idle tidOf) s = some s' ∧
      Inv client idle tidOf s' order :=
  Run.exists_foldlM (P := fun s => Inv client idle tidOf s order) (fun _ i h => h.step i) h events

end Inv

/-- Two tasks, the first of which lists them. -/
def twoTasks : Dispatch ℕ :=
  { Sched.twoTasks with ticks := 0, schedEnable := true, current := some 5 }

end Listing

end Koerix
