import Koerix.Sched.Dispatch

/-! # Removing a task while tasks are switched

The idle task removes killed tasks from the list. It looks for the item of the task with
scheduling enabled, and so may be interrupted at each step of the search. The list is then
rotated, and other tasks are inserted, change their states and go on, until the idle task is
selected again. By then it is at the front, as it was before, and the search goes on in a
list that has only grown.
-/

namespace Koerix

/-- Where the idle task stands in `removeTask(x)`. -/
inductive RemovePc (τ : Type)
  /-- not in `removeTask` -/
  | idle
  | start (x : τ)
  /-- `it != nullptr` and `it->item == item` -/
  | test (x : τ) (it : Option ℕ)
  /-- `it = it->next` -/
  | next (x : τ) (it : ℕ)
  /-- `find` has returned the item; `s_schedEnable = false` -/
  | found (x : τ) (it : ℕ)
  /-- `s_taskList.remove_it(it)` -/
  | unlink (x : τ) (it : ℕ)
  /-- `s_schedEnable = true` -/
  | enable (x : τ) (it : ℕ)
  /-- `delete it` -/
  | delete (x : τ) (it : ℕ)
  /-- `find` has returned null -/
  | failed
  deriving DecidableEq

/-- The processor, what the idle task does, and the steps it has made since `removeTask` was
called. -/
structure Removal (τ : Type) extends Dispatch τ where
  pc : RemovePc τ
  taken : ℕ

namespace Removal

variable {τ : Type}

def goto (s : Removal τ) (pc : RemovePc τ) : Removal τ := { s with pc := pc, taken := s.taken + 1 }

/-- One step of the idle task. A failed assertion is undefined. -/
def exec [DecidableEq τ] (s : Removal τ) : Option (Removal τ) :=
  match s.pc with
  | .idle => some s
  | .start x =>
    if s.schedEnable ∧ (s.task x).state = .killed then some (s.goto (.test x s.taskList.first))
    else none
  | .test _ none => some (s.goto .failed)
  | .test x (some a) => do
    let e ← s.taskList.heap a
    return s.goto (if e.item = x then .found x a else .next x a)
  | .next x a => do
    let e ← s.taskList.heap a
    return s.goto (.test x e.next)
  | .found x a => some { s.goto (.unlink x a) with schedEnable := false }
  | .unlink x a => do
    let l ← s.taskList.removeIt (some a)
    return { s.goto (.enable x a) with taskList := l }
  | .enable x a => some { s.goto (.delete x a) with schedEnable := true }
  | .delete _ a => some { s.goto .idle with taskList := s.taskList.store a none }
  | .failed => none

/-- What happens next. -/
inductive Event (τ : Type)
  /-- the timer counts -/
  | tick
  /-- a timer interrupt, or `yield()` of the current task -/
  | schedule
  /-- a task other than the idle task sleeps, wakes up or is killed, or a new task is constructed
  that is not in the list -/
  | change (t : τ) (info : TaskInfo)
  /-- `insertTask(t)`, with the address of the new item -/
  | insert (t : τ) (a : ℕ)
  /-- the idle task calls `removeTask(x)` -/
  | remove (x : τ)
  /-- the current task makes a step -/
  | exec

/-- Events that cannot happen have no effect. -/
def step [DecidableEq τ] (idle : τ) (s : Removal τ) : Event τ → Option (Removal τ)
  | .tick => some { s with ticks := s.ticks + 1 }
  | .schedule => s.toDispatch.schedule.map fun d => { s with toDispatch := d }
  | .change t info =>
    if t ≠ idle ∧ ((s.task t).state ≠ .killed ∨ s.taskList.find t = some none) then
      some { s with task := Function.update s.task t info }
    else some s
  | .insert t a =>
    if s.schedEnable ∧ (s.task t).state = .running ∧ s.taskList.find t = some none ∧
        s.taskList.heap a = none then
      (s.taskList.pushBack t a).map fun l => { s with taskList := l }
    else some s
  | .remove x =>
    if s.current = some idle ∧ s.pc = .idle ∧ (s.task x).state = .killed ∧
        s.taskList.find x ≠ some none then
      some { s with pc := .start x, taken := 0 }
    else some s
  | .exec => if s.current = some idle then s.exec else some s

/-- In the order that the idle task sees, the item of the task is still ahead. -/
def Ahead (order : List (ℕ × τ)) (s : Removal τ) : RemovePc τ → Prop
  | .idle => True
  | .start x => (s.task x).state = .killed ∧ x ∈ order.map Prod.snd ∧ s.taken = 0
  | .test x it => (s.task x).state = .killed ∧ ∃ u e v, order = u ++ e :: v ∧ it = some e.1 ∧
      x ∈ (e :: v).map Prod.snd ∧ s.taken ≤ 2 * u.length + 1
  | .next x a => (s.task x).state = .killed ∧ ∃ u e v, order = u ++ e :: v ∧ a = e.1 ∧
      x ∈ v.map Prod.snd ∧ s.taken ≤ 2 * u.length + 2
  | .found x a => (s.task x).state = .killed ∧ ∃ u v, order = u ++ (a, x) :: v
  | .unlink x a => (s.task x).state = .killed ∧ ∃ u v, order = u ++ (a, x) :: v
  | .enable _ a => a ∉ order.map Prod.fst ∧ s.taskList.heap a ≠ none
  | .delete _ a => a ∉ order.map Prod.fst ∧ s.taskList.heap a ≠ none
  | .failed => False

/-- Scheduling is disabled. -/
def Exclusive : RemovePc τ → Prop
  | .unlink _ _ | .enable _ _ => True
  | _ => False

structure Inv (idle : τ) (s : Removal τ) (order : List (ℕ × τ)) : Prop where
  seated : s.Seated order
  root : (order.map Prod.snd).head? = some idle
  nodup : (order.map Prod.snd).Nodup
  running : (s.task idle).state = .running
  exclusive : s.schedEnable = false ↔ Exclusive s.pc
  current : s.schedEnable = false → s.current = some idle
  ahead : Ahead order s s.pc

variable {idle : τ} {s s' : Removal τ} {order u v : List (ℕ × τ)} {pc : RemovePc τ} {e : ℕ × τ}

theorem Ahead.congr (h : Ahead order s pc)
    (hkilled : ∀ x ∈ order.map Prod.snd, (s.task x).state = .killed → (s'.task x).state = .killed)
    (htaken : s'.taken = s.taken)
    (hheap : ∀ a, a ∉ order.map Prod.fst → s'.taskList.heap a = s.taskList.heap a) :
    Ahead order s' pc := by
  cases pc with
  | idle => trivial
  | start x => exact ⟨hkilled x h.2.1 h.1, h.2.1, htaken.trans h.2.2⟩
  | test x it =>
    obtain ⟨hk, u, e, v, rfl, hit, hx, ht⟩ := h
    refine ⟨hkilled x ?_ hk, u, e, v, rfl, hit, hx, htaken ▸ ht⟩
    rw [List.map_append]
    exact List.mem_append_right _ hx
  | next x a =>
    obtain ⟨hk, u, e, v, rfl, ha, hx, ht⟩ := h
    refine ⟨hkilled x ?_ hk, u, e, v, rfl, ha, hx, htaken ▸ ht⟩
    rw [List.map_append, List.map_cons]
    exact List.mem_append_right _ (List.mem_cons_of_mem _ hx)
  | found x a | unlink x a =>
    obtain ⟨hk, u, v, rfl⟩ := h
    exact ⟨hkilled x (by simp) hk, u, v, rfl⟩
  | enable x a | delete x a => exact ⟨h.1, by rw [hheap a h.1]; exact h.2⟩
  | failed => exact h

theorem exists_split_insert {α : Type} {u v u₀ v₀ : List α} {e : α} (x : α)
    (h : u ++ v = u₀ ++ e :: v₀) :
    ∃ u' v', u ++ x :: v = u' ++ e :: v' ∧ u₀.length ≤ u'.length ∧ v₀ ⊆ v' := by
  rcases List.append_eq_append_iff.mp h with ⟨w, rfl, rfl⟩ | ⟨w, rfl, hw⟩
  · exact ⟨u ++ x :: w, v₀, by simp, by simp, fun _ => id⟩
  · cases w with
    | nil =>
      rw [List.nil_append] at hw
      exact ⟨u₀ ++ [x], v₀, by simp [hw], by simp, fun _ => id⟩
    | cons y w =>
      obtain ⟨rfl, rfl⟩ := List.cons.inj hw
      refine ⟨u₀, w ++ x :: v, by simp, le_rfl, fun z hz => ?_⟩
      rcases List.mem_append.mp hz with hz | hz
      · exact List.mem_append_left _ hz
      · exact List.mem_append_right _ (List.mem_cons_of_mem x hz)

/-- An item that is inserted anywhere leaves what is ahead there. -/
theorem Ahead.insert (h : Ahead (u ++ v) s pc) (htask : s'.task = s.task)
    (htaken : s'.taken = s.taken) (he : s.taskList.heap e.1 = none)
    (hheap : ∀ b, b ≠ e.1 → b ∉ (u ++ v).map Prod.fst → s'.taskList.heap b = s.taskList.heap b) :
    Ahead (u ++ e :: v) s' pc := by
  cases pc with
  | idle => trivial
  | start x =>
    obtain ⟨hk, hx, ht⟩ := h
    refine ⟨htask ▸ hk, ?_, htaken.trans ht⟩
    rw [List.map_append, List.map_cons, List.mem_append, List.mem_cons]
    rw [List.map_append, List.mem_append] at hx
    tauto
  | test x it =>
    obtain ⟨hk, u₀, e₀, v₀, hsplit, hit, hx, ht⟩ := h
    obtain ⟨u', v', hsplit', hlen, hsub⟩ := exists_split_insert e hsplit
    refine ⟨htask ▸ hk, u', e₀, v', hsplit', hit, ?_, by omega⟩
    exact List.map_subset _ (List.cons_subset_cons e₀ hsub) hx
  | next x a =>
    obtain ⟨hk, u₀, e₀, v₀, hsplit, ha, hx, ht⟩ := h
    obtain ⟨u', v', hsplit', hlen, hsub⟩ := exists_split_insert e hsplit
    exact ⟨htask ▸ hk, u', e₀, v', hsplit', ha, List.map_subset _ hsub hx, by omega⟩
  | found x a | unlink x a =>
    obtain ⟨hk, u₀, v₀, hsplit⟩ := h
    obtain ⟨u', v', hsplit', -, -⟩ := exists_split_insert e hsplit
    exact ⟨htask ▸ hk, u', v', hsplit'⟩
  | enable x a | delete x a =>
    obtain ⟨ha, hsome⟩ := h
    have hne : a ≠ e.1 := by
      rintro rfl
      exact hsome he
    refine ⟨?_, by rw [hheap a hne ha]; exact hsome⟩
    rw [List.map_append, List.map_cons, List.mem_append, List.mem_cons]
    rw [List.map_append, List.mem_append] at ha
    tauto
  | failed => exact h

namespace Inv

theorem represents (h : Inv idle s order) (hc : s.current = some idle) :
    s.taskList.Represents order := by
  have hroot := h.root
  have hnodup := h.nodup
  have hseated := h.seated
  cases order with
  | nil => cases hroot
  | cons n ns =>
    obtain ⟨a, t⟩ := n
    obtain rfl : t = idle := by simpa using hroot
    exact hseated.represents hnodup hc

theorem exists_ready (h : Inv idle s order) : ∃ m ∈ order, (s.task m.2).Ready s.ticks := by
  have hmem : idle ∈ order.map Prod.snd := List.mem_of_mem_head? (by rw [h.root]; rfl)
  obtain ⟨m, hm, rfl⟩ := List.mem_map.mp hmem
  exact ⟨m, hm, TaskInfo.ready_of_running h.running⟩

theorem enabled (h : Inv idle s order) (hpc : ¬ Exclusive s.pc) : s.schedEnable = true := by
  by_contra hoff
  exact hpc (h.exclusive.mp (Bool.not_eq_true _ ▸ hoff))

theorem goto (h : Inv idle s order) (hpc : ¬ Exclusive s.pc) (hpc' : ¬ Exclusive pc)
    (hahead : Ahead order (s.goto pc) pc) : Inv idle (s.goto pc) order where
  seated := h.seated
  root := h.root
  nodup := h.nodup
  running := h.running
  exclusive := by
    have hon : (s.goto pc).schedEnable = true := h.enabled hpc
    rw [hon]
    exact ⟨fun hf => (Bool.noConfusion hf), fun hf => absurd hf hpc'⟩
  current := h.current
  ahead := hahead

variable [DecidableEq τ]

theorem find_eq_none_iff (h : Inv idle s order) {x : τ} :
    s.taskList.find x = some none ↔ x ∉ order.map Prod.snd := by
  obtain ⟨ps, hrot, hrep, -⟩ := h.seated
  rw [hrep.find_eq_none_iff, (hrot.perm.map Prod.snd).mem_iff]

theorem schedule (h : Inv idle s order) :
    ∃ s', s.step idle .schedule = some s' ∧ Inv idle s' order := by
  obtain ⟨d, hd, hsch⟩ := h.seated.schedule h.exists_ready
  have hidle : d.task idle = s.task idle := hsch.task_eq idle (by rw [h.running]; decide)
  refine ⟨{ s with toDispatch := d }, by simp [step, hd], hsch.seated, h.root, h.nodup, ?_, ?_, ?_,
    ?_⟩
  · rw [← h.running]
    exact congrArg _ hidle
  · exact (congrArg (· = false) hsch.schedEnable_eq).to_iff.trans h.exclusive
  · intro hoff
    have hoff' : s.schedEnable = false := hsch.schedEnable_eq.symm.trans hoff
    exact (hsch.current_eq hoff').trans (h.current hoff')
  · refine h.ahead.congr (fun x _ hx => ?_) rfl hsch.heap_eq
    exact (congrArg _ (hsch.task_eq x (by rw [hx]; decide))).trans hx

theorem change (h : Inv idle s order) (t : τ) (info : TaskInfo) :
    ∃ s', s.step idle (.change t info) = some s' ∧ Inv idle s' order := by
  by_cases hguard : t ≠ idle ∧ ((s.task t).state ≠ .killed ∨ s.taskList.find t = some none)
  · refine ⟨_, if_pos hguard, h.seated, h.root, h.nodup, ?_, h.exclusive, h.current,
      h.ahead.congr (fun x hx hk => ?_) rfl fun _ _ => rfl⟩
    · rw [← h.running]
      exact congrArg _ (Function.update_of_ne hguard.1.symm ..)
    · have hne : x ≠ t := by
        rintro rfl
        rcases hguard.2 with hlive | hnone
        · exact hlive hk
        · exact h.find_eq_none_iff.mp hnone hx
      rw [← hk]
      exact congrArg _ (Function.update_of_ne hne ..)
  · exact ⟨s, if_neg hguard, h⟩

theorem insert (h : Inv idle s order) (t : τ) (a : ℕ) :
    ∃ s' order', s.step idle (.insert t a) = some s' ∧ Inv idle s' order' := by
  by_cases hguard : s.schedEnable = true ∧ (s.task t).state = .running ∧
      s.taskList.find t = some none ∧ s.taskList.heap a = none
  · have hnew : t ∉ order.map Prod.snd := h.find_eq_none_iff.mp hguard.2.2.1
    have hne : order ≠ [] := by
      rintro rfl
      cases h.root
    obtain ⟨l, u, v, hl, rfl, hu, hseated, hheap⟩ := h.seated.insert hguard.2.2.2 t hne
    refine ⟨{ s with taskList := l }, u ++ (a, t) :: v, ?_, hseated, ?_, ?_, h.running, h.exclusive,
      h.current, h.ahead.insert rfl rfl hguard.2.2.2 hheap⟩
    · simp [step, hguard, hl]
    · have hroot := h.root
      cases u with
      | nil => exact absurd rfl hu
      | cons n u => exact hroot
    · have hnodup := h.nodup
      have hperm : ((u ++ (a, t) :: v).map Prod.snd).Perm (t :: (u ++ v).map Prod.snd) :=
        List.perm_middle.map Prod.snd
      rw [hperm.nodup_iff, List.nodup_cons]
      exact ⟨hnew, hnodup⟩
  · exact ⟨s, order, if_neg hguard, h⟩

theorem remove (h : Inv idle s order) (x : τ) :
    ∃ s', s.step idle (.remove x) = some s' ∧ Inv idle s' order := by
  by_cases hguard : s.current = some idle ∧ s.pc = .idle ∧ (s.task x).state = .killed ∧
      s.taskList.find x ≠ some none
  · have hx : x ∈ order.map Prod.snd := by
      by_contra hx
      exact hguard.2.2.2 (h.find_eq_none_iff.mpr hx)
    have hexcl := h.exclusive
    rw [hguard.2.1] at hexcl
    exact ⟨_, if_pos hguard, h.seated, h.root, h.nodup, h.running, hexcl, h.current,
      hguard.2.2.1, hx, rfl⟩
  · exact ⟨s, if_neg hguard, h⟩

theorem exec (h : Inv idle s order) (hc : s.current = some idle) :
    ∃ s' order', s.exec = some s' ∧ Inv idle s' order' := by
  have hrep := h.represents hc
  have hahead := h.ahead
  cases hpc : s.pc with
  | idle => exact ⟨s, order, by simp [Removal.exec, hpc], h⟩
  | start x =>
    rw [hpc] at hahead
    obtain ⟨hk, hx, ht⟩ := hahead
    have hon := h.enabled (by simp [hpc, Exclusive])
    obtain ⟨n, ns, rfl⟩ : ∃ n ns, order = n :: ns := List.exists_cons_of_ne_nil (by
      rintro rfl
      cases hx)
    refine ⟨s.goto (.test x s.taskList.first), _, by simp [Removal.exec, hpc, hon, hk],
      h.goto (by simp [hpc, Exclusive]) (by simp [Exclusive])
        ⟨hk, [], n, ns, rfl, hrep.first, hx, ?_⟩⟩
    simp [Removal.goto, ht]
  | test x it =>
    rw [hpc] at hahead
    obtain ⟨hk, u, e, v, rfl, rfl, hx, ht⟩ := hahead
    have he := hrep.heap_eq
    refine ⟨s.goto (if e.2 = x then .found x e.1 else .next x e.1), u ++ e :: v,
      by simp [Removal.exec, hpc, he], ?_⟩
    split_ifs with hex
    · refine h.goto (by simp [hpc, Exclusive]) (by simp [Exclusive]) ⟨hk, u, v, ?_⟩
      rw [← hex]
    · refine h.goto (by simp [hpc, Exclusive]) (by simp [Exclusive])
        ⟨hk, u, e, v, rfl, rfl, ?_, by simp only [Removal.goto]; omega⟩
      rw [List.map_cons, List.mem_cons] at hx
      exact hx.resolve_left (Ne.symm hex)
  | next x a =>
    rw [hpc] at hahead
    obtain ⟨hk, u, e, v, rfl, rfl, hx, ht⟩ := hahead
    have he := hrep.heap_eq
    obtain ⟨n, v, rfl⟩ : ∃ n ns, v = n :: ns := List.exists_cons_of_ne_nil (by
      rintro rfl
      cases hx)
    refine ⟨s.goto (.test x (some n.1)), _, by simp [Removal.exec, hpc, he],
      h.goto (by simp [hpc, Exclusive]) (by simp [Exclusive])
        ⟨hk, u ++ [e], n, v, by simp, rfl, hx, ?_⟩⟩
    simp only [Removal.goto, List.length_append, List.length_singleton]
    omega
  | found x a =>
    rw [hpc] at hahead
    exact ⟨{ s.goto (.unlink x a) with schedEnable := false }, order, by simp [Removal.exec, hpc],
      h.seated, h.root, h.nodup, h.running, by simp [Removal.goto, Exclusive], fun _ => hc, hahead⟩
  | unlink x a =>
    rw [hpc] at hahead
    obtain ⟨hk, u, v, rfl⟩ := hahead
    have hroot := h.root
    have hidle : s.current = (u.map Prod.snd).head? := by
      cases u with
      | nil =>
        obtain rfl : x = idle := by simpa using hroot
        rw [h.running] at hk
        cases hk
      | cons n u =>
        rw [hc, ← hroot]
        rfl
    obtain ⟨l, hl, -, hseated, hheap⟩ := Dispatch.Seated.removeIt (s := s.toDispatch) hrep hidle
    have hnodup : ((u ++ v).map Prod.snd).Nodup := by
      refine h.nodup.sublist ?_
      exact List.Sublist.map _ (List.Sublist.append_left (List.sublist_cons_self _ _) _)
    refine ⟨{ s.goto (.enable x a) with taskList := l }, u ++ v, by simp [Removal.exec, hpc, hl],
      hseated, ?_, hnodup, h.running, ?_, h.current, ?_, ?_⟩
    · rw [List.map_append, List.head?_append, ← hidle, hc]
      rfl
    · have hoff := h.exclusive.mpr (by simp [hpc, Exclusive])
      simp [Removal.goto, Exclusive, hoff]
    · rw [List.map_append, List.mem_append, not_or]
      exact hrep.notMem
    · refine ne_of_eq_of_ne hheap ?_
      rw [hrep.heap_eq]
      simp
  | enable x a =>
    rw [hpc] at hahead
    exact ⟨{ s.goto (.delete x a) with schedEnable := true }, order, by simp [Removal.exec, hpc],
      h.seated, h.root, h.nodup, h.running, by simp [Removal.goto, Exclusive], by simp, hahead⟩
  | delete x a =>
    rw [hpc] at hahead
    obtain ⟨ps, hrot, hps, hhead⟩ := h.seated
    have ha : a ∉ ps.map Prod.fst := fun hm => hahead.1 ((hrot.perm.map _).mem_iff.mp hm)
    have hon := h.enabled (by simp [hpc, Exclusive])
    refine ⟨{ s.goto .idle with taskList := s.taskList.store a none }, order,
      by simp [Removal.exec, hpc], ⟨ps, hrot, hps.store_none ha, hhead⟩, h.root, h.nodup, h.running,
      ?_, h.current, trivial⟩
    simp [Removal.goto, Exclusive, hon]
  | failed =>
    rw [hpc] at hahead
    exact hahead.elim

theorem step (h : Inv idle s order) (i : Event τ) :
    ∃ s' order', s.step idle i = some s' ∧ Inv idle s' order' := by
  cases i with
  | tick =>
    exact ⟨_, order, rfl, h.seated, h.root, h.nodup, h.running, h.exclusive, h.current,
      h.ahead.congr (fun _ _ => id) rfl fun _ _ => rfl⟩
  | schedule =>
    obtain ⟨s', hs', h'⟩ := h.schedule
    exact ⟨s', order, hs', h'⟩
  | change t info =>
    obtain ⟨s', hs', h'⟩ := h.change t info
    exact ⟨s', order, hs', h'⟩
  | insert t a => exact h.insert t a
  | remove x =>
    obtain ⟨s', hs', h'⟩ := h.remove x
    exact ⟨s', order, hs', h'⟩
  | exec =>
    by_cases hc : s.current = some idle
    · obtain ⟨s', order', hs', h'⟩ := h.exec hc
      exact ⟨s', order', (if_pos hc).trans hs', h'⟩
    · exact ⟨s, order, if_neg hc, h⟩

theorem run (h : Inv idle s order) (events : List (Event τ)) :
    ∃ s' order', events.foldlM (Removal.step idle) s = some s' ∧ Inv idle s' order' := by
  have hstep : ∀ (s : Removal τ) (i : Event τ), (∃ order, Inv idle s order) →
      ∃ s', Removal.step idle s i = some s' ∧ ∃ order', Inv idle s' order' := by
    rintro s i ⟨order, h⟩
    obtain ⟨s', order', hs', h'⟩ := h.step i
    exact ⟨s', hs', order', h'⟩
  obtain ⟨s', hs', order', h'⟩ := Run.exists_foldlM hstep ⟨order, h⟩ events
  exact ⟨s', order', hs', h'⟩

end Inv

variable [DecidableEq τ]

end Removal

end Koerix
