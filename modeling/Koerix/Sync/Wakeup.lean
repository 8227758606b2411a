import Koerix.Sync.Mutex
import Mathlib.Data.Fintype.Basic

/-! # Lost wake-ups of the mutex

A waiter is not lost as long as some task is about to take the mutex or to wake
a waiter. `lock()` enqueues the task some steps after the exchange has failed,
and `unlock()` looks at the list only once, so the task may enqueue itself when
it is too late.
-/

namespace Koerix

namespace Mutex

variable {τ : Type*} [DecidableEq τ] {s s' : Mutex τ} {t : τ}

/-- The task is awake in `lock()` and tries the lock word next. -/
def Taking (s : Mutex τ) (t : τ) : Prop :=
  (s.pc t = .lockXchg ∨ s.pc t = .lockYield) ∧ s.state t = .running

/-- The task has released the lock word and wakes a waiter if there is one. -/
def Waking : MutexPc τ → Prop
  | .unlockWaiting | .unlockWaitingYield | .unlockPop | .unlockResume _ => True
  | _ => False

instance : DecidablePred (Waking (τ := τ)) := fun p =>
  match p with
  | .unlockWaiting | .unlockWaitingYield | .unlockPop | .unlockResume _ => isTrue trivial
  | .out | .lockXchg | .lockWaiting | .lockWaitingYield | .lockPush | .lockDisable => isFalse id
  | .lockSleep | .lockRelease | .lockEnable | .lockYield | .lockHold | .holding => isFalse id
  | .unlockCheck | .unlockHolder | .unlockWord | .unlockRelease => isFalse id

/-- The mutex is free, its waiters sleep, and nobody is about to take it or to wake them. -/
structure Lost (s : Mutex τ) : Prop where
  free : s.lock = false
  waiters : s.waitingTasks ≠ []
  asleep : ∀ t ∈ s.waitingTasks, s.state t = .sleeping
  nobody : ∀ t, ¬ s.Taking t ∧ ¬ Waking (s.pc t)

/-- A task that enqueues itself does so while the mutex is locked, or before the task that has
released it has looked at the list. -/
def Timely (s : Mutex τ) : Event τ → Prop
  | .exec => s.pc s.current = .lockPush → s.lock = true ∨ ∃ t, Waking (s.pc t)
  | _ => True

instance [Fintype τ] (s : Mutex τ) : DecidablePred s.Timely
  | .exec => inferInstanceAs (Decidable (_ → _ ∨ ∃ t, Waking (s.pc t)))
  | .yield _ | .preempt _ | .rest _ _ | .wake _ => isTrue trivial

/-- Somebody is about to take a free mutex or to wake a waiter. -/
def Served (s : Mutex τ) : Prop :=
  s.lock = false → s.waitingTasks ≠ [] → ∃ t, s.Taking t ∨ Waking (s.pc t)

omit [DecidableEq τ] in
theorem served_init (current : τ) : Served (init current) := by simp [Served, init]

theorem Served.move {l w e : Bool} {h : Option τ} {q : MutexPc τ} (hv : Served s)
    (hl : l = false → s.lock = false)
    (ht : s.Taking s.current → q = .lockXchg ∨ q = .lockYield)
    (hw : Waking (s.pc s.current) → Waking q) :
    Served ({ s with lock := l, heldBy := h, waitingTasksLock := w, schedEnable := e }.goto q) := by
  intro hfree hne
  obtain ⟨t, ht'⟩ := hv (hl hfree) hne
  use t
  rcases eq_or_ne t s.current with rfl | hcur
  · grind [Taking]
  · simpa [Taking, hcur] using ht'

/-- A step of the current task keeps a waiter served. -/
theorem Served.exec (hv : Served s) (h : Inv s) (hok : s.Timely .exec) : Served s.exec := by
  unfold Mutex.exec
  cases hp : s.pc s.current <;> dsimp only
  case lockXchg =>
    split
    case isTrue hl =>
      intro hfree
      exact absurd hl (by simp_all [goto])
    case isFalse =>
      intro hfree
      simp [goto] at hfree
  case lockWaiting | unlockWaiting =>
    split
    all_goals apply hv.move <;> simp [Taking, Waking, hp]
  case lockPush =>
    intro hfree _
    obtain hl | ⟨t, ht⟩ := hok hp
    · exact absurd hl (by simp_all [goto])
    · have hne : t ≠ s.current := by
        rintro rfl
        simp [hp, Waking] at ht
      exact ⟨t, .inr (by simpa [hne] using ht)⟩
  case lockSleep =>
    intro hfree hne
    obtain ⟨t, ht⟩ := hv hfree hne
    have hcur : t ≠ s.current := by
      rintro rfl
      simp [hp, Taking, Waking] at ht
    exact ⟨t, by simpa [Taking, hcur] using ht⟩
  case unlockWord => exact fun _ _ => ⟨s.current, .inr (by simp [Waking])⟩
  case unlockPop =>
    cases hlist : s.waitingTasks with
    | nil =>
      intro _ hne
      exact absurd hlist hne
    | cons task tasks => exact fun _ _ => ⟨s.current, .inr (by simp [Waking])⟩
  case unlockResume task =>
    -- the task that is woken up tries the lock word again
    obtain ⟨-, hs, hpc⟩ := h.resuming _ _ hp
    have hne : task ≠ s.current := by
      rintro rfl
      simp [hp] at hpc
    exact fun _ _ => ⟨task, .inl (by simpa [Taking, hne] using hpc.symm)⟩
  case lockWaitingYield | lockYield | unlockWaitingYield => exact hv
  all_goals apply hv.move <;> simp [Taking, Waking, hp]

theorem Served.step {i : Event τ} (hv : Served s) (h : Inv s) (hok : s.Timely i)
    (hs : s.step i = some s') : Served s' := by
  cases i with
  | exec =>
    simp only [Mutex.step, Option.ite_none_right_eq_some, Option.some.injEq] at hs
    rw [← hs.2]
    exact hv.exec h hok
  | yield next =>
    simp only [Mutex.step, Option.bind_eq_bind, Option.bind_eq_some_iff,
      Option.ite_none_right_eq_some, Option.some.injEq] at hs
    obtain ⟨p, hy, -, rfl⟩ := hs
    have hgoto : Served (s.goto p) := by
      cases hp : s.pc s.current
      all_goals
        simp only [hp, afterYield, reduceCtorEq, Option.some.injEq] at hy
        try (subst hy; apply hv.move <;> simp [Taking, Waking, hp])
    exact hgoto
  | preempt next =>
    simp only [Mutex.step, Option.ite_none_right_eq_some, Option.some.injEq] at hs
    rw [← hs.2]
    exact hv
  | rest state next =>
    simp only [Mutex.step, Option.ite_none_right_eq_some, Option.some.injEq] at hs
    obtain ⟨⟨haway, -, -⟩, rfl⟩ := hs
    intro hfree hne
    obtain ⟨t, ht⟩ := hv hfree hne
    have hcur : t ≠ s.current := by
      rintro rfl
      cases hp : s.pc s.current <;> simp_all [Away, Taking, Waking]
    exact ⟨t, by simpa [Taking, hcur] using ht⟩
  | wake task =>
    simp only [Mutex.step, Option.ite_none_right_eq_some, Option.some.injEq] at hs
    obtain ⟨⟨haway, -⟩, rfl⟩ := hs
    intro hfree hne
    obtain ⟨t, ht⟩ := hv hfree hne
    have hcur : t ≠ task := by
      rintro rfl
      cases hp : s.pc t <;> simp_all [Away, Taking, Waking]
    exact ⟨t, by simpa [Taking, hcur] using ht⟩

/-- No wake-up is lost in a run whose tasks enqueue themselves in time. -/
theorem not_lost_of_timely (current : τ) (h : Run.Reachable step Timely (init current) s) :
    ¬ Lost s := by
  have hinv : Inv s ∧ Served s := by
    apply h.invariant (P := fun s => Inv s ∧ Served s) ⟨inv_init current, served_init current⟩
    intro s i s' hs hok hstep
    exact ⟨step_inv hs.1 hstep, hs.2.step hs.1 hok hstep⟩
  intro hlost
  obtain ⟨t, ht⟩ := hinv.2 hlost.free hlost.waiters
  rcases ht with ht | ht
  · exact (hlost.nobody t).1 ht
  · exact (hlost.nobody t).2 ht

/-- The mutex is released after a task has gone to sleep on it. -/
def timelyCalls : List (Event Bool) := contended ++ List.replicate 4 Event.exec

theorem not_lost_of_timely_timelyCalls : ∃ s, timelyCalls.foldlM step (init true) = some s ∧
    s.lock = false ∧ s.waitingTasks = [false] ∧ ¬ Lost s := by
  have hrun : (timelyCalls.foldlM step (init true)).map (fun s => (s.lock, s.waitingTasks)) =
      some (false, [false]) := by decide
  obtain ⟨s, hs, heq⟩ := Option.map_eq_some_iff.mp hrun
  rw [Prod.mk.injEq] at heq
  have hreach : Run.Reachable step Timely (init true) s := by
    refine Run.Guarded.reachable ?_ hs
    decide
  exact ⟨s, hs, heq.1, heq.2, not_lost_of_timely true hreach⟩

/-- The holder releases the mutex between the failed exchange of the other task
and its `push_back`. -/
def lostCalls : List (Event Bool) :=
  List.replicate 3 Event.exec ++ Event.preempt false :: List.replicate 2 .exec ++
    Event.preempt true :: List.replicate 7 .exec ++ Event.preempt false :: List.replicate 6 .exec ++
      [Event.yield true]

theorem not_forall_not_lost : ¬ ∀ s : Mutex Bool,
    Run.Reachable step (fun _ _ => True) (init true) s → ¬ Lost s := by
  have hrun : (lostCalls.foldlM step (init true)).map
      (fun s => (s.lock, s.waitingTasks, s.state false, s.pc true)) =
        some (false, [false], .sleeping, .out) := by decide
  obtain ⟨s, hs, heq⟩ := Option.map_eq_some_iff.mp hrun
  simp only [Prod.mk.injEq] at heq
  obtain ⟨hfree, hwait, hsleep, hpc⟩ := heq
  have hpc' : (lostCalls.foldlM step (init true)).map (fun s => s.pc false) = some .lockXchg := by
    decide
  rw [hs, Option.map_some, Option.some.injEq] at hpc'
  have hreach : Run.Reachable step (fun _ _ => True) (init true) s := Run.reachable_of_foldlM hs
  intro hall
  apply hall s hreach
  constructor
  case free => exact hfree
  case waiters => simp [hwait]
  case asleep => simp [hwait, hsleep]
  case nobody =>
    intro t
    cases t with
    | false => simp [Taking, hpc', hsleep, Waking]
    | true => simp [Taking, hpc, Waking]

end Mutex

end Koerix
