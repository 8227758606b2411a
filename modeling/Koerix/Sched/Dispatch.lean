import Koerix.Sched.Select

/-! # The task at the front

`schedule()` makes the task that `getNextTask` returns the current one. The current task is
therefore at the front of the list of tasks whenever it runs. Seen from one task, the list
has the same order at each of its steps, however often it has been rotated in between.
-/

namespace Koerix

/-- The tasks on one processor. There is no current task until the first call of `schedule()`. -/
structure Dispatch (τ : Type) extends Sched τ where
  ticks : UInt64
  schedEnable : Bool
  current : Option τ

theorem exists_append_of_isRotated {α : Type} {l l' : List α} (h : l ~r l') :
    ∃ u v, l' = u ++ v ∧ l = v ++ u := by
  obtain ⟨k, rfl⟩ := h.symm
  refine ⟨l'.take (k % l'.length), l'.drop (k % l'.length), (List.take_append_drop _ _).symm, ?_⟩
  exact List.rotate_eq_drop_append_take_mod

namespace Dispatch

variable {τ : Type}

/-- `sched::core::schedule()`. -/
def schedule [DecidableEq τ] (s : Dispatch τ) : Option (Dispatch τ) :=
  if s.schedEnable then do
    let (task, sched) ← Sched.getNextTask s.ticks s.taskCount s.toSched
    return { s with toSched := sched, current := some task }
  else some s

/-- The list has the given items up to rotation, and the current task is at its front. -/
def Seated (s : Dispatch τ) (order : List (ℕ × τ)) : Prop :=
  ∃ ps, ps ~r order ∧ s.taskList.Represents ps ∧
    ∀ t, s.current = some t → (ps.map Prod.snd).head? = some t

/-- What a call of `schedule()` leaves alone. -/
structure Scheduled (s s' : Dispatch τ) (order : List (ℕ × τ)) : Prop where
  seated : Seated s' order
  ticks_eq : s'.ticks = s.ticks
  schedEnable_eq : s'.schedEnable = s.schedEnable
  task_eq : ∀ t, (s.task t).state ≠ .sleeping → s'.task t = s.task t
  heap_eq : ∀ b, b ∉ order.map Prod.fst → s'.taskList.heap b = s.taskList.heap b
  current_eq : s.schedEnable = false → s'.current = s.current

variable {s : Dispatch τ} {order ns u v : List (ℕ × τ)} {t : τ} {a : ℕ} {e : ℕ × τ}

theorem Seated.represents (h : Seated s ((a, t) :: ns)) (hnd : (((a, t) :: ns).map Prod.snd).Nodup)
    (hc : s.current = some t) : s.taskList.Represents ((a, t) :: ns) := by
  obtain ⟨ps, hrot, hrep, hhead⟩ := h
  obtain ⟨u, v, huv, rfl⟩ := exists_append_of_isRotated hrot
  cases u with
  | nil =>
    rw [List.nil_append] at huv
    rw [List.append_nil, ← huv] at hrep
    exact hrep
  | cons n u =>
    cases v with
    | nil =>
      rw [List.append_nil] at huv
      rwa [List.nil_append, ← huv] at hrep
    | cons m v =>
      obtain ⟨rfl, rfl⟩ := List.cons.inj huv
      have hm : m.2 = t := by simpa using hhead t hc
      simp [hm] at hnd

theorem Seated.schedule [DecidableEq τ] (h : Seated s order)
    (hready : ∃ m ∈ order, (s.task m.2).Ready s.ticks) :
    ∃ s', s.schedule = some s' ∧ Scheduled s s' order := by
  cases hs : s.schedEnable with
  | false =>
    exact ⟨s, by simp [Dispatch.schedule, hs], h, rfl, rfl, fun _ _ => rfl, fun _ _ => rfl,
      fun _ => rfl⟩
  | true =>
    obtain ⟨ps, hrot, hrep, hhead⟩ := h
    obtain ⟨m, hm, hmr⟩ := hready
    have hmem := hrot.mem_iff.mpr hm
    obtain ⟨n, ns, rfl⟩ : ∃ n ns, ps = n :: ns := List.exists_cons_of_ne_nil (by
      rintro rfl
      cases hmem)
    obtain ⟨pre, y, post, l, hsplit, -, -, hl, hrep', hheap⟩ :=
      Sched.exists_getNextTask hrep ⟨m, hmem, hmr⟩
    let s' : Dispatch τ := { s with
      taskList := l
      task := Function.update s.task y.2 ((s.task y.2).schedulable s.ticks).2
      current := some y.2 }
    refine ⟨s', by simp [Dispatch.schedule, hs, hl, s'], ⟨_, ?_, hrep', by simp [s']⟩, rfl, rfl,
      ?_, ?_, ?_⟩
    · have hback : pre ++ y :: post ~r n :: ns := hsplit ▸ List.isRotated_append
      exact (List.isRotated_append.trans hback).trans hrot
    · intro t ht
      rcases eq_or_ne t y.2 with rfl | hne
      · simp [TaskInfo.schedulable, ht, s']
      · exact Function.update_of_ne hne ..
    · intro b hb
      exact hheap b fun hm => hb ((hrot.perm.map _).mem_iff.mp hm)
    · simp [hs]

/-- A task that is inserted comes in front of the current one in the cyclic order. -/
theorem Seated.insert (h : Seated s order) (ha : s.taskList.heap a = none) (t : τ)
    (hne : order ≠ []) :
    ∃ l u v, s.taskList.pushBack t a = some l ∧ order = u ++ v ∧ u ≠ [] ∧
      Seated { s with taskList := l } (u ++ (a, t) :: v) ∧
      ∀ b, b ≠ a → b ∉ order.map Prod.fst → l.heap b = s.taskList.heap b := by
  obtain ⟨ps, hrot, hrep, hhead⟩ := h
  obtain ⟨l, hl, hrep', hheap⟩ := hrep.pushBack t ha
  have hheap' : ∀ b, b ≠ a → b ∉ order.map Prod.fst → l.heap b = s.taskList.heap b := by
    intro b hb hbo
    refine hheap b ?_
    rw [List.map_append, List.mem_append, not_or]
    exact ⟨fun hm => hbo ((hrot.perm.map _).mem_iff.mp hm), by simpa using hb⟩
  have hhead' : ∀ t', s.current = some t' → ((ps ++ [(a, t)]).map Prod.snd).head? = some t' := by
    intro t' ht'
    rw [List.map_append, List.head?_append, hhead t' ht']
    rfl
  obtain ⟨u, v, huv, rfl⟩ := exists_append_of_isRotated hrot
  cases u with
  | nil =>
    refine ⟨l, order, [], hl, (List.append_nil _).symm, hne, ⟨_, ?_, hrep', hhead'⟩, hheap'⟩
    rw [huv, List.append_nil, List.nil_append]
  | cons n u =>
    refine ⟨l, n :: u, v, hl, huv, by simp, ⟨_, ?_, hrep', hhead'⟩, hheap'⟩
    rw [List.append_assoc]
    simpa using @List.isRotated_append _ v (n :: u ++ [(a, t)])

theorem Seated.removeIt (h : s.taskList.Represents (u ++ e :: v))
    (hc : s.current = (u.map Prod.snd).head?) :
    ∃ l, s.taskList.removeIt (some e.1) = some l ∧ l.Represents (u ++ v) ∧
      Seated { s with taskList := l } (u ++ v) ∧ l.heap e.1 = s.taskList.heap e.1 := by
  obtain ⟨l, hl, hrep, hheap⟩ := h.removeIt
  have he := h.notMem
  refine ⟨l, hl, hrep, ⟨_, .refl _, hrep, fun t ht => ?_⟩, hheap e.1 ?_⟩
  · rw [List.map_append, List.head?_append, ← hc, ht]
    rfl
  · rw [List.map_append, List.mem_append, not_or]
    exact he

end Dispatch

end Koerix
