import Koerix.List.Basic
import Koerix.Proc.Basic
import Koerix.Sync.Cpu

/-! # Reaping dead tasks

`checkForDeadTasks` deletes the killed tasks of a process in one loop over `m_taskList`. After
it has removed an item it goes back to the one before, from where the loop goes on. At the
front there is none, and it starts with the new front instead; the loop then moves on from it,
so that the second task is passed over when the first one is dead.
-/

namespace Koerix

open DNode

/-- The lists of a process and of the scheduler, with the tasks that have been deleted. -/
structure Reaping (τ : Type) where
  taskList : LinkedList τ
  schedList : LinkedList τ
  state : ProcState
  task : τ → TaskState
  currentTask : τ
  deleted : List τ

namespace Reaping

variable {τ : Type}

/-- The dead tasks, in order. -/
def dead (s : Reaping τ) (ns : List (ℕ × τ)) : List τ :=
  (ns.filter fun n => s.task n.2 = .killed).map Prod.snd

def alive (s : Reaping τ) (ns : List (ℕ × τ)) : List (ℕ × τ) :=
  ns.filter fun n => s.task n.2 ≠ .killed

/-- What is left and what is reaped: the task behind a dead front is passed over. -/
def outcome (s : Reaping τ) : List (ℕ × τ) → List (ℕ × τ) × List τ
  | [] => ([], [])
  | [e] => (s.alive [e], s.dead [e])
  | e :: f :: vs =>
    if s.task e.2 = .killed then (f :: s.alive vs, e.2 :: s.dead vs)
    else (e :: s.alive (f :: vs), s.dead (f :: vs))

/-- The first two tasks are not both dead. -/
def FrontAlive (s : Reaping τ) : List (ℕ × τ) → Prop
  | e :: f :: _ => ¬ (s.task e.2 = .killed ∧ s.task f.2 = .killed)
  | _ => True

instance (s : Reaping τ) : DecidablePred (FrontAlive s) := fun ns =>
  match ns with
  | [] => isTrue trivial
  | [_] => isTrue trivial
  | e :: f :: _ => inferInstanceAs (Decidable (¬ (s.task e.2 = .killed ∧ s.task f.2 = .killed)))

variable {s : Reaping τ} {ns : List (ℕ × τ)}

theorem outcome_of_frontAlive (h : FrontAlive s ns) : s.outcome ns = (s.alive ns, s.dead ns) := by
  match ns, h with
  | [], _ => rfl
  | [e], _ => rfl
  | e :: f :: vs, h =>
    rw [outcome]
    by_cases he : s.task e.2 = .killed
    · have hf : s.task f.2 ≠ .killed := fun hf => h ⟨he, hf⟩
      simp [alive, dead, he, hf]
    · simp [alive, dead, he]

theorem length_outcome_of_not_frontAlive (h : ¬ FrontAlive s ns) :
    (s.outcome ns).1.length = (s.alive ns).length + 1 := by
  match ns, h with
  | [], h => exact absurd trivial h
  | [e], h => exact absurd trivial h
  | e :: f :: vs, h =>
    obtain ⟨he, hf⟩ := not_not.mp h
    simp [outcome, alive, he, hf]

variable [DecidableEq τ]

/-- `sched::removeTask(task)`. -/
def removeTask (s : Reaping τ) (task : τ) : Option (Reaping τ) := do
  if s.task task = .killed then
    let it ← s.schedList.find task
    let l ← s.schedList.remove it
    return { s with schedList := l }
  else none

/-- What the loop does with a dead task, up to `m_taskList.remove(it)`. -/
def reapTask (s : Reaping τ) (it : ℕ) (userTask : τ) : Option (Reaping τ) := do
  if userTask = s.currentTask then none
  else
    let s ← s.removeTask userTask
    let l ← s.taskList.remove (some it)
    return { s with taskList := l, deleted := s.deleted ++ [userTask] }

/-- The item from which the loop goes on after a removal, if there is one. -/
def resumeAt (s : Reaping τ) (prev : Option ℕ) : Option ℕ :=
  if prev = none then s.taskList.first else prev

/-- The loop of `checkForDeadTasks`, from the item `it` on. -/
def reapFrom (s : Reaping τ) : ℕ → Option ℕ → Option (Reaping τ)
  | _, none => some s
  | 0, some _ => none
  | n + 1, some it => do
    let e ← s.taskList.heap it
    if s.task e.item = .killed then
      let s ← s.reapTask it e.item
      match s.resumeAt e.prev with
      | none => some s
      | some it =>
        let e ← s.taskList.heap it
        reapFrom s n e.next
    else reapFrom s n e.next

/-- `UserProcess::checkForDeadTasks()`. -/
def checkForDeadTasks (s : Reaping τ) : Option (Reaping τ) := do
  let s ← s.reapFrom s.taskList.size s.taskList.first
  return if s.taskList.size = 0 then { s with state := .toBeDeleted } else s

/-- The lists have the given tasks: those of the process are different ones, and the killed ones
are in the scheduler's list, which has no task twice. -/
structure Lists (s : Reaping τ) (ns qs : List (ℕ × τ)) : Prop where
  tasks : s.taskList.Represents ns
  sched : s.schedList.Represents qs
  nodup : (ns.map Prod.snd).Nodup
  sched_nodup : (qs.map Prod.snd).Nodup
  mem_sched : ∀ n ∈ ns, s.task n.2 = .killed → n.2 ∈ qs.map Prod.snd
  current : ∀ n ∈ ns, s.task n.2 = .killed → n.2 ≠ s.currentTask

/-- The state after the tasks `dead` have been reaped, with `left` remaining. -/
structure Reaped (s s' : Reaping τ) (qs left : List (ℕ × τ)) (dead : List τ) : Prop where
  tasks : s'.taskList.Represents left
  sched : s'.schedList.Represents (qs.filter fun q => q.2 ∉ dead)
  deleted : s'.deleted = s.deleted ++ dead
  task_eq : s'.task = s.task
  state_eq : s'.state = s.state

variable {s' : Reaping τ} {qs us vs : List (ℕ × τ)} {e : ℕ × τ} {x : τ} {k : ℕ}

theorem filter_ne_of_nodup {q : ℕ × τ} (h : ((us ++ q :: vs).map Prod.snd).Nodup) :
    (us ++ q :: vs).filter (fun m => m.2 ∉ [q.2]) = us ++ vs := by
  rw [List.map_append, List.map_cons, List.nodup_append, List.nodup_cons] at h
  have hne : ∀ m ∈ us ++ vs, m.2 ≠ q.2 := by
    intro m hm he
    rcases List.mem_append.mp hm with hm | hm
    · exact h.2.2 _ (List.mem_map_of_mem hm) _ List.mem_cons_self he
    · exact h.2.1.1 (he ▸ List.mem_map_of_mem hm)
  rw [List.filter_append, List.filter_cons_of_neg (by simp), ← List.filter_append]
  refine List.filter_eq_self.mpr fun m hm => ?_
  simpa using hne m hm

theorem removeTask_eq (h : s.schedList.Represents qs) (hnodup : (qs.map Prod.snd).Nodup)
    (hx : x ∈ qs.map Prod.snd) (hk : s.task x = .killed) :
    ∃ l, s.removeTask x = some { s with schedList := l } ∧
      l.Represents (qs.filter fun q => q.2 ∉ [x]) := by
  obtain ⟨q, hq, rfl⟩ := List.mem_map.mp hx
  obtain ⟨q₁, q₂, rfl⟩ := List.append_of_mem hq
  have hq₁ : ∀ m ∈ q₁, m.2 ≠ q.2 := by
    rw [List.map_append, List.map_cons, List.nodup_append] at hnodup
    exact fun m hm => hnodup.2.2 _ (List.mem_map_of_mem hm) _ List.mem_cons_self
  obtain ⟨l, hl, hrep⟩ := h.remove
  refine ⟨l, by simp [removeTask, hk, h.find_eq hq₁, hl], ?_⟩
  rw [filter_ne_of_nodup hnodup]
  exact hrep

theorem Lists.reapTask (h : Lists s (us ++ e :: vs) qs) (hk : s.task e.2 = .killed) :
    ∃ s', s.reapTask e.1 e.2 = some s' ∧ Reaped s s' qs (us ++ vs) [e.2] ∧
      Lists s' (us ++ vs) (qs.filter fun q => q.2 ∉ [e.2]) := by
  obtain ⟨l, hl, hrep⟩ := h.tasks.remove
  obtain ⟨l', hl', hrep'⟩ := removeTask_eq h.sched h.sched_nodup (h.mem_sched e (by simp) hk) hk
  have hsub : (us ++ vs).Sublist (us ++ e :: vs) :=
    List.Sublist.append_left (List.sublist_cons_self _ _) _
  have hne : ∀ n ∈ us ++ vs, n.2 ≠ e.2 := by
    have hnd := h.nodup
    rw [List.map_append, List.map_cons, List.nodup_append, List.nodup_cons] at hnd
    intro n hn he
    rcases List.mem_append.mp hn with hn | hn
    · exact hnd.2.2 _ (List.mem_map_of_mem hn) _ List.mem_cons_self he
    · exact hnd.2.1.1 (he ▸ List.mem_map_of_mem hn)
  let s' : Reaping τ := { s with
    schedList := l'
    taskList := l
    deleted := s.deleted ++ [e.2] }
  refine ⟨s', ?_, ⟨hrep, hrep', rfl, rfl, rfl⟩, hrep, hrep', h.nodup.sublist (hsub.map _),
    ?_, ?_, ?_⟩
  · have hcur := h.current e (by simp) hk
    simp [Reaping.reapTask, hcur, hl', hl, s']
  · exact h.sched_nodup.sublist (List.filter_sublist.map _)
  · intro n hn hkn
    obtain ⟨q, hq, hqn⟩ := List.mem_map.mp (h.mem_sched n (hsub.subset hn) hkn)
    refine List.mem_map.mpr ⟨q, List.mem_filter.mpr ⟨hq, ?_⟩, hqn⟩
    simpa [hqn] using hne n hn
  · exact fun n hn => h.current n (hsub.subset hn)

theorem Reaped.trans {s₁ s₂ : Reaping τ} {left left' : List (ℕ × τ)} {dead dead' : List τ}
    (h : Reaped s s₁ qs left dead)
    (h' : Reaped s₁ s₂ (qs.filter fun q => q.2 ∉ dead) left' dead') :
    Reaped s s₂ qs left' (dead ++ dead') where
  tasks := h'.tasks
  sched := by
    have hsched := h'.sched
    rw [List.filter_filter] at hsched
    convert hsched using 2
    simp [Bool.and_comm]
  deleted := by rw [h'.deleted, h.deleted, List.append_assoc]
  task_eq := h'.task_eq.trans h.task_eq
  state_eq := h'.state_eq.trans h.state_eq

/-- Behind an item that stays, the loop reaps all dead tasks. -/
theorem Lists.reapFrom (h : Lists s (us ++ vs) qs) (hus : us ≠ []) (hk : vs.length ≤ k) :
    ∃ s', s.reapFrom k (headOr none vs) = some s' ∧
      Reaped s s' qs (us ++ s.alive vs) (s.dead vs) := by
  induction vs generalizing s us qs k with
  | nil =>
    refine ⟨s, by cases k <;> rfl, h.tasks, ?_, by simp [dead], rfl, rfl⟩
    have hall : qs.filter (fun q => q.2 ∉ s.dead []) = qs :=
      List.filter_eq_self.mpr fun q _ => by simp [dead]
    rw [hall]
    exact h.sched
  | cons e vs ih =>
    obtain ⟨k, rfl⟩ : ∃ j, k = j + 1 := ⟨k - 1, by simp at hk; omega⟩
    have hlen : vs.length ≤ k := by simpa using hk
    have he := h.tasks.heap_eq
    rw [headOr_cons]
    by_cases hdead : s.task e.2 = .killed
    · obtain ⟨s₁, hs₁, hr₁, h₁⟩ := h.reapTask hdead
      obtain ⟨us', y, rfl⟩ := (List.eq_nil_or_concat' us).resolve_left hus
      have hy : s₁.taskList.heap y.1 = some ⟨y.2, headOr none vs, lastOr none us'⟩ := by
        have := h₁.tasks
        rw [List.append_assoc, List.singleton_append] at this
        exact this.heap_eq
      obtain ⟨s', hs', hr'⟩ := ih h₁ hus hlen
      refine ⟨s', ?_, ?_⟩
      · rw [Reaping.reapFrom]
        simp [he, hdead, hs₁, resumeAt, hy, hs']
      · have halive : s₁.alive vs = s.alive (e :: vs) := by
          simp [alive, hr₁.task_eq, hdead]
        have hdead' : [e.2] ++ s₁.dead vs = s.dead (e :: vs) := by
          simp [dead, hr₁.task_eq, hdead]
        rw [← halive, ← hdead']
        exact hr₁.trans hr'
    · rw [List.append_cons us e] at h
      obtain ⟨s', hs', hr'⟩ := ih h (by simp) hlen
      refine ⟨s', ?_, ?_⟩
      · rw [Reaping.reapFrom]
        simp [he, hdead, hs']
      · have halive : us ++ [e] ++ s.alive vs = us ++ s.alive (e :: vs) := by
          simp [alive, hdead]
        have hdead' : s.dead vs = s.dead (e :: vs) := by
          simp [dead, hdead]
        rw [← halive, ← hdead']
        exact hr'

/-- The whole loop. -/
theorem Lists.reapFrom_first (h : Lists s ns qs) :
    ∃ s', s.reapFrom s.taskList.size s.taskList.first = some s' ∧
      Reaped s s' qs (s.outcome ns).1 (s.outcome ns).2 := by
  rw [h.tasks.first, h.tasks.size]
  cases ns with
  | nil =>
    refine ⟨s, rfl, h.tasks, ?_, by simp [outcome], rfl, rfl⟩
    have hall : qs.filter (fun q => q.2 ∉ (s.outcome []).2) = qs :=
      List.filter_eq_self.mpr fun q _ => by simp [outcome]
    rw [hall]
    exact h.sched
  | cons e ns =>
    have he := h.tasks.heap_first
    rw [headOr_cons, List.length_cons, Reaping.reapFrom, he, Option.bind_eq_bind, Option.bind_some]
    by_cases hdead : s.task e.2 = .killed
    · obtain ⟨s₁, hs₁, hr₁, h₁⟩ := Lists.reapTask (show Lists s ([] ++ e :: ns) qs from h) hdead
      rw [List.nil_append] at h₁ hr₁
      have hfirst := h₁.tasks.first
      cases ns with
      | nil =>
        refine ⟨s₁, ?_, by simpa [outcome, alive, dead, hdead] using hr₁⟩
        simp [hdead, hs₁, resumeAt, hfirst]
      | cons f vs =>
        have hf := h₁.tasks.heap_first
        obtain ⟨s', hs', hr'⟩ := Lists.reapFrom (k := vs.length + 1)
          (show Lists s₁ ([f] ++ vs) _ from h₁) (by simp) (by omega)
        refine ⟨s', by simp [hdead, hs₁, resumeAt, hfirst, hf, hs'], ?_⟩
        have hout : s.outcome (e :: f :: vs) = ([f] ++ s₁.alive vs, [e.2] ++ s₁.dead vs) := by
          simp [outcome, hdead, alive, dead, hr₁.task_eq]
        rw [hout]
        exact hr₁.trans hr'
    · obtain ⟨s', hs', hr'⟩ := Lists.reapFrom (k := ns.length)
        (show Lists s ([e] ++ ns) qs from h) (by simp) (Nat.le_refl _)
      refine ⟨s', by simp [hdead, hs'], ?_⟩
      have hout : s.outcome (e :: ns) = ([e] ++ s.alive ns, s.dead ns) := by
        cases ns with
        | nil => simp [outcome, alive, dead, hdead]
        | cons f vs => simp [outcome, hdead]
      rw [hout]
      exact hr'

theorem Lists.checkForDeadTasks (h : Lists s ns qs) :
    ∃ s', s.checkForDeadTasks = some s' ∧ s'.taskList.Represents (s.outcome ns).1 ∧
      s'.schedList.Represents (qs.filter fun q => q.2 ∉ (s.outcome ns).2) ∧
      s'.deleted = s.deleted ++ (s.outcome ns).2 ∧
      s'.state = if (s.outcome ns).1 = [] then .toBeDeleted else s.state := by
  obtain ⟨s₁, hs₁, hr⟩ := h.reapFrom_first
  have hsize : s₁.taskList.size = 0 ↔ (s.outcome ns).1 = [] := by
    rw [hr.tasks.size, List.length_eq_zero_iff]
  rw [Reaping.checkForDeadTasks, hs₁, Option.bind_eq_bind, Option.bind_some]
  by_cases hnil : (s.outcome ns).1 = []
  · rw [if_pos (hsize.mpr hnil)]
    exact ⟨_, rfl, hr.tasks, hr.sched, hr.deleted, (if_pos hnil).symm⟩
  · rw [if_neg fun hz => hnil (hsize.mp hz)]
    exact ⟨_, rfl, hr.tasks, hr.sched, hr.deleted, hr.state_eq.trans (if_neg hnil).symm⟩

/-- The dead tasks of the process, and only they, are gone: from the process, from the scheduler,
and from memory. The process is marked if no task is left. -/
structure Reaps (s s' : Reaping τ) (ns qs : List (ℕ × τ)) : Prop where
  tasks : s'.taskList.Represents (s.alive ns)
  sched : s'.schedList.Represents (qs.filter fun q => q.2 ∉ s.dead ns)
  deleted : s'.deleted = s.deleted ++ s.dead ns
  state : s'.state = if s.alive ns = [] then .toBeDeleted else s.state

/-- One call reaps all dead tasks if and only if the first two tasks are not both dead. -/
theorem reaps_iff_frontAlive (h : Lists s ns qs) :
    (∃ s', s.checkForDeadTasks = some s' ∧ Reaps s s' ns qs) ↔ FrontAlive s ns := by
  obtain ⟨s', hs', htasks, hsched, hdeleted, hstate⟩ := h.checkForDeadTasks
  constructor
  · rintro ⟨s'', hs'', hreaps⟩
    obtain rfl : s' = s'' := Option.some.inj (hs'.symm.trans hs'')
    by_contra hfront
    have hlen := length_outcome_of_not_frontAlive hfront
    rw [← htasks.size, hreaps.tasks.size] at hlen
    omega
  · intro hfront
    rw [outcome_of_frontAlive hfront] at htasks hsched hdeleted hstate
    exact ⟨s', hs', htasks, hsched, hdeleted, hstate⟩

/-- A process with two tasks, in these states. -/
def twoTasks (state₁ state₂ : TaskState) : Reaping ℕ where
  taskList := ⟨fun a => if a = 0 then some ⟨5, some 1, none⟩ else
    if a = 1 then some ⟨6, none, some 0⟩ else none, 2, some 0, some 1⟩
  schedList := ⟨fun a => if a = 0 then some ⟨7, some 1, none⟩ else
    if a = 1 then some ⟨5, some 2, some 0⟩ else
    if a = 2 then some ⟨6, none, some 1⟩ else none, 3, some 0, some 2⟩
  state := .killed
  task t := if t = 5 then state₁ else if t = 6 then state₂ else .running
  currentTask := 7
  deleted := []

theorem lists_twoTasks (state₁ state₂ : TaskState) :
    Lists (twoTasks state₁ state₂) [(0, 5), (1, 6)] [(0, 7), (1, 5), (2, 6)] where
  tasks := ⟨by decide, ⟨rfl, rfl, trivial⟩, rfl, rfl, rfl⟩
  sched := ⟨by decide, ⟨rfl, rfl, rfl, trivial⟩, rfl, rfl, rfl⟩
  nodup := by decide
  sched_nodup := by decide
  mem_sched := by simp
  current := by simp [twoTasks]

theorem reaps_twoTasks : ∃ s', (twoTasks .killed .running).checkForDeadTasks = some s' ∧
    Reaps (twoTasks .killed .running) s' [(0, 5), (1, 6)] [(0, 7), (1, 5), (2, 6)] :=
  (reaps_iff_frontAlive (lists_twoTasks _ _)).mpr (by decide)

/-- Of two dead tasks, one is left. -/
theorem not_reaps_twoTasks : ¬ ∃ s', (twoTasks .killed .killed).checkForDeadTasks = some s' ∧
    Reaps (twoTasks .killed .killed) s' [(0, 5), (1, 6)] [(0, 7), (1, 5), (2, 6)] := by
  rintro ⟨s', hs', hreaps⟩
  obtain ⟨s'', hs'', htasks, -⟩ := (lists_twoTasks .killed .killed).checkForDeadTasks
  obtain rfl : s'' = s' := Option.some.inj (hs''.symm.trans hs')
  exact absurd (htasks.size.symm.trans hreaps.tasks.size) (by decide)

end Reaping

end Koerix
