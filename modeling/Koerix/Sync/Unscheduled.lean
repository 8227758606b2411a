import Koerix.Sync.Nested

/-! # Code without the scheduler

`Task::sleepAndUnlock` turns the scheduler off and calls `unlock()`. For a
spinlock nothing can go wrong in between. For the mutex of a queue, `unlock()`
takes the lock of the waiting tasks and may take the heap lock, and if another
task has it, nobody ever gives it back.
-/

namespace Koerix

namespace Locking

open Instr

variable {τ μ κ : Type}

/-- No other task has the spinlock. -/
def Available (s : Locking τ μ κ) (x : SpinId μ κ) : Prop := ∀ t ∈ s.spin x, t = s.cpu.current

/-- The lock whose `Spinlock::lock` the code is in. -/
def spinsOn : List (Instr τ μ κ) → Option (SpinId μ κ)
  | .spin x :: _ => some x
  | _ => none

/-- The current task waits in `Spinlock::lock` for another task, and the scheduler is off. -/
def Stuck (s : Locking τ μ κ) : Prop :=
  s.cpu.schedEnable = false ∧ ∃ x ∈ spinsOn s.code, ¬ s.Available x

/-- The queue with whose mutex `sleepAndUnlock` is called. -/
def unlocks : List (Instr τ μ κ) → Option κ
  | .schedOff :: .sleep :: .checkHolder (.queue q) :: _ => some q
  | _ => none

/-- `sleepAndUnlock` is called with a mutex only if no other task has the locks that `unlock()`
will take. -/
def Quiet (s : Locking τ μ κ) : Event τ μ κ → Prop
  | .exec _ => ∀ q ∈ unlocks s.code, s.Available (.waiting (.queue q)) ∧
      ((s.mutex (.queue q)).waitingTasks ≠ [] → s.Available .heap)
  | _ => True

instance [DecidableEq τ] (s : Locking τ μ κ) (x : SpinId μ κ) : Decidable (s.Available x) :=
  inferInstanceAs (Decidable (∀ t ∈ s.spin x, t = s.cpu.current))

instance [DecidableEq τ] (s : Locking τ μ κ) : Decidable s.Stuck :=
  inferInstanceAs (Decidable (_ ∧ ∃ x ∈ spinsOn s.code, ¬ s.Available x))

instance [DecidableEq τ] (s : Locking τ μ κ) : ∀ e, Decidable (s.Quiet e)
  | .exec _ => inferInstanceAs (Decidable (∀ q ∈ unlocks s.code, s.Available (.waiting (.queue q)) ∧
      ((s.mutex (.queue q)).waitingTasks ≠ [] → s.Available .heap)))
  | .call _ | .yield _ | .preempt _ => isTrue trivial

theorem spinsOn_eq {c : List (Instr τ μ κ)} {x : SpinId μ κ} (h : x ∈ spinsOn c) :
    ∃ d, c = .spin x :: d := by
  unfold spinsOn at h
  split at h <;> simp_all

/-- What stands behind `s_schedEnable = false`. -/
inductive SleepAndUnlock : List (Instr τ μ κ) → Prop
  | spinlock (m : MutexId μ κ) (c : List (Instr τ μ κ)) :
    SleepAndUnlock (.sleep :: .unspin (.waiting m) :: .schedOn :: c)
  | mutex (q : κ) (c : List (Instr τ μ κ)) :
    SleepAndUnlock (.sleep :: unlock (.queue q) ++ .schedOn :: c)

theorem SleepAndUnlock.append {c : List (Instr τ μ κ)} (h : SleepAndUnlock c)
    (d : List (Instr τ μ κ)) : SleepAndUnlock (c ++ d) := by
  cases h with
  | spinlock m c => exact .spinlock m (c ++ d)
  | mutex q c =>
    rw [List.append_assoc, List.cons_append]
    exact .mutex q (c ++ d)

/-- The scheduler is turned off in `sleepAndUnlock` only. -/
def Brief : List (Instr τ μ κ) → Prop
  | [] => True
  | .schedOff :: c => SleepAndUnlock c ∧ Brief c
  | _ :: c => Brief c

theorem Brief.tail {i : Instr τ μ κ} {c : List (Instr τ μ κ)} (h : Brief (i :: c)) : Brief c := by
  cases i <;> simp_all [Brief]

theorem Brief.append {c d : List (Instr τ μ κ)} (hc : Brief c) (hd : Brief d) :
    Brief (c ++ d) := by
  induction c with
  | nil => exact hd
  | cons i c ih =>
    have := ih hc.tail
    cases i with
    | schedOff => exact ⟨hc.1.append d, this⟩
    | _ => simpa [Brief] using this

theorem Brief.flatten {c : List (Instr τ μ κ)} (hc : Brief c) (n : ℕ) :
    Brief (List.replicate n c).flatten := by
  induction n with
  | zero => trivial
  | succ n ih =>
    rw [List.replicate_succ, List.flatten_cons]
    exact hc.append ih

theorem brief_wait (m : MutexId μ κ) : Brief (wait m : List (Instr τ μ κ)) := by
  simp only [wait, useHeap, sleepAndUnlock, List.cons_append, List.nil_append, Brief, and_true]
  exact .spinlock m _

theorem brief_waitQueue (q : κ) : Brief (waitQueue q : List (Instr τ μ κ)) := by
  simp only [waitQueue, useHeap, Instr.lock, unlock, sleepAndUnlock, List.cons_append,
    List.nil_append, Brief, and_true]
  exact .mutex q _

theorem brief_call (c : Call μ κ) : Brief (c.code : List (Instr τ μ κ)) := by
  cases c <;> trivial

theorem brief_page (grows : Bool) : Brief (page grows : List (Instr τ μ κ)) := by
  cases grows <;> trivial

/-- What an instruction puts in front of the code that follows it. -/
inductive Calls : Instr τ μ κ → List (Instr τ μ κ) → Prop
  | nil (i : Instr τ μ κ) : Calls i []
  | spin (x : SpinId μ κ) : Calls (.spin x) [.spin x]
  | wait (m : MutexId μ κ) : Calls (.acquire m) (wait m)
  | setHolder (m : MutexId μ κ) : Calls (.acquire m) [.setHolder m]
  | popWaiting (m : MutexId μ κ) (task : τ) :
    Calls (.popWaiting m) (useHeap false ++ [.resume task])
  | heap (grows : Bool) (n : ℕ) : Calls (.heap grows) (List.replicate n (page grows)).flatten
  | map (grows : Bool) (n : ℕ) : Calls (.map grows) (List.replicate n allocPage).flatten
  | test (q : κ) (len : ℕ) : Calls (.test q len) (waitQueue q)
  | wakeup (q : κ) (task : τ) :
    Calls (.wakeup q) (useHeap false ++ [.resume task, .wakeup q])

theorem Calls.brief {i : Instr τ μ κ} {d : List (Instr τ μ κ)} (h : Calls i d) : Brief d := by
  cases h with
  | wait m => exact brief_wait m
  | heap grows n => exact (brief_page grows).flatten n
  | map grows n =>
    have : Brief (allocPage : List (Instr τ μ κ)) := trivial
    exact this.flatten n
  | test q len => exact brief_waitQueue q
  | _ => trivial

variable [DecidableEq τ] [DecidableEq μ] [DecidableEq κ]
variable {s s' : Locking τ μ κ} {n : ℕ} {i : Instr τ μ κ} {c : List (Instr τ μ κ)}

/-- An instruction changes the code of the current task only. -/
theorem execInstr_pc (hcode : s.code = i :: c) (h : s.execInstr n c i = some s') :
    ∃ d, Calls i d ∧ s'.cpu.pc = Function.update s.cpu.pc s.cpu.current (d ++ c) := by
  cases i with
  | spin x =>
    simp only [execInstr, Option.some.injEq] at h
    split at h
    · refine ⟨[.spin x], .spin x, ?_⟩
      rw [← h, List.singleton_append, ← hcode]
      exact (Function.update_eq_self ..).symm
    · exact ⟨[], .nil _, h ▸ rfl⟩
  | acquire m =>
    simp only [execInstr, Option.some.injEq] at h
    split_ifs at h
    · exact ⟨_, .wait m, h ▸ rfl⟩
    · exact ⟨_, .setHolder m, h ▸ rfl⟩
  | popWaiting m =>
    simp only [execInstr] at h
    split at h
    · exact ⟨[], .nil _, by cases h; rfl⟩
    · exact ⟨_, .popWaiting m _, by cases h; rfl⟩
  | wakeup q =>
    simp only [execInstr] at h
    split at h
    · exact ⟨[], .nil _, by cases h; rfl⟩
    · exact ⟨_, .wakeup q _, by cases h; rfl⟩
  | test q len =>
    simp only [execInstr, Option.some.injEq] at h
    split_ifs at h
    · exact ⟨_, .test q len, h ▸ rfl⟩
    · exact ⟨[], .nil _, h ▸ rfl⟩
  | heap grows => exact ⟨_, .heap grows n, by cases h; rfl⟩
  | map grows =>
    simp only [execInstr, Option.some.injEq] at h
    split_ifs at h
    · exact ⟨_, .map grows n, h ▸ rfl⟩
    · exact ⟨[], .nil _, h ▸ rfl⟩
  | resume task =>
    simp only [execInstr, wake, Option.map_eq_some_iff, Option.ite_none_right_eq_some,
      Option.some.injEq] at h
    obtain ⟨_, ⟨-, rfl⟩, rfl⟩ := h
    exact ⟨[], .nil _, rfl⟩
  | unspin | checkHolder | sleep =>
    simp only [execInstr, Option.ite_none_right_eq_some, Option.some.injEq] at h
    exact ⟨[], .nil _, h.2 ▸ rfl⟩
  | read | write =>
    simp only [execInstr, Option.map_eq_some_iff] at h
    obtain ⟨_, -, rfl⟩ := h
    exact ⟨[], .nil _, rfl⟩
  | setHolder | clearHolder | clearLock | pushWaiting | schedOff | schedOn | subscribe =>
    cases h
    exact ⟨[], .nil _, rfl⟩
  | yield => cases h

/-- The code of the tasks turns the scheduler off in `sleepAndUnlock` only. -/
theorem brief_step (hs : ∀ t, Brief (s.cpu.pc t)) {e : Event τ μ κ} (h : s.step e = some s') :
    ∀ t, Brief (s'.cpu.pc t) := by
  have hupdate : ∀ {d : List (Instr τ μ κ)}, Brief d →
      ∀ t, Brief (Function.update s.cpu.pc s.cpu.current d t) := by
    intro d hd t
    rcases eq_or_ne t s.cpu.current with rfl | hne
    · rwa [Function.update_self]
    · rw [Function.update_of_ne hne]
      exact hs t
  cases e with
  | call c =>
    simp only [step, Option.ite_none_right_eq_some, Option.some.injEq] at h
    obtain ⟨-, rfl⟩ := h
    exact hupdate (brief_call c)
  | exec n =>
    simp only [step] at h
    split at h
    case h_1 => cases h
    case h_2 i c hcode =>
      obtain ⟨d, hd, hpc⟩ := execInstr_pc hcode h
      have hc : Brief (i :: c) := hcode ▸ hs s.cpu.current
      rw [hpc]
      exact hupdate (hd.brief.append hc.tail)
  | yield next =>
    simp only [step] at h
    split at h
    case h_1 c hcode =>
      have hc : Brief (.yield :: c) := hcode ▸ hs s.cpu.current
      split_ifs at h <;> cases h <;> exact hupdate hc.tail
    case h_2 => cases h
  | preempt next =>
    simp only [step, Option.ite_none_right_eq_some, Option.some.injEq] at h
    obtain ⟨-, rfl⟩ := h
    exact hs

/-- An instruction between `s_schedEnable = false` and `s_schedEnable = true` that waits for
nobody. -/
def CalmInstr (s : Locking τ μ κ) : Instr τ μ κ → Prop
  | .spin x => s.Available x
  | .popWaiting m => (s.mutex m).waitingTasks ≠ [] → s.Available .heap
  | .acquire m => m = .kernelSpace
  | .heap grows | .map grows => grows = false
  | .unspin _ | .setHolder _ | .checkHolder _ | .clearHolder _ | .clearLock _ => True
  | .resume _ | .sleep => True
  | _ => False

/-- The current task gets to `s_schedEnable = true` without waiting. -/
def Calm (s : Locking τ μ κ) (c : List (Instr τ μ κ)) : Prop :=
  ∃ d e, c = d ++ .schedOn :: e ∧ ∀ i ∈ d, s.CalmInstr i

/-- The current task takes locks that are free, gives up locks and takes tasks from the lists. -/
structure Advances (s s' : Locking τ μ κ) : Prop where
  available : ∀ x, s.Available x → s'.Available x
  waiting : ∀ m, (s.mutex m).waitingTasks = [] → (s'.mutex m).waitingTasks = []

omit [DecidableEq τ] [DecidableEq μ] [DecidableEq κ] in
theorem CalmInstr.advance (hs : Advances s s') (h : s.CalmInstr i) : s'.CalmInstr i := by
  cases i with
  | spin x => exact hs.available x h
  | popWaiting m =>
    intro hne
    exact hs.available .heap (h fun hnil => hne (hs.waiting m hnil))
  | _ => exact h

omit [DecidableEq μ] [DecidableEq κ] in
theorem advances_goto (s : Locking τ μ κ) (c : List (Instr τ μ κ)) : Advances s (s.goto c) :=
  ⟨fun _ h => h, fun _ h => h⟩

theorem advances_setSpin {x : SpinId μ κ} {t : Option τ} (ht : ∀ t' ∈ t, t' = s.cpu.current) :
    Advances s ((s.setSpin x t).goto c) := by
  refine ⟨fun y hy => ?_, fun _ h => h⟩
  rcases eq_or_ne y x with rfl | hne
  · simpa [Available, setSpin] using ht
  · simpa [Available, setSpin, Function.update_of_ne hne] using hy

theorem advances_setMutex {m : MutexId μ κ} {w : MutexWord τ}
    (hw : (s.mutex m).waitingTasks = [] → w.waitingTasks = []) :
    Advances s ((s.setMutex m w).goto c) := by
  refine ⟨fun _ h => h, fun m' hm' => ?_⟩
  rcases eq_or_ne m' m with rfl | hne
  · simpa [setMutex] using hw hm'
  · simpa [setMutex, Function.update_of_ne hne] using hm'

/-- What a calm instruction calls is calm. -/
theorem CalmInstr.exec (hn : Nested s) (hcode : s.code = i :: c) (hi : s.CalmInstr i)
    (h : s.execInstr n c i = some s') : Advances s s' ∧ s'.cpu.schedEnable = s.cpu.schedEnable ∧
      ∃ d, s'.code = d ++ c ∧ ∀ j ∈ d, s'.CalmInstr j := by
  obtain ⟨p, hp⟩ := hn.head hcode
  have hnil : ∀ {s₁ : Locking τ μ κ}, (s₁.goto c).code = [] ++ c ∧
      ∀ j ∈ ([] : List (Instr τ μ κ)), (s₁.goto c).CalmInstr j := by
    intro s₁
    simp [code, goto]
  cases i with
  | spin x =>
    simp only [execInstr, Option.some.injEq] at h
    subst h
    split
    · exact ⟨⟨fun _ h => h, fun _ h => h⟩, rfl, [.spin x], hcode, by simpa using hi⟩
    · exact ⟨advances_setSpin (by simp), rfl, [], hnil⟩
  | unspin x =>
    simp only [execInstr, Option.ite_none_right_eq_some, Option.some.injEq] at h
    obtain ⟨-, rfl⟩ := h
    exact ⟨advances_setSpin (by simp), rfl, [], hnil⟩
  | acquire m =>
    obtain rfl : m = .kernelSpace := hi
    have hq : s.nesting s.cpu.current = .heap := by
      cases hq : s.nesting s.cpu.current <;> simp_all
    simp only [execInstr, (nesting_eq_heap hq).2.2, Option.some.injEq] at h
    subst h
    exact ⟨advances_setMutex id, rfl, [.setHolder .kernelSpace], by simp [code, goto], by
      simp [CalmInstr]⟩
  | setHolder m | clearHolder m | clearLock m =>
    cases h
    exact ⟨advances_setMutex id, rfl, [], hnil⟩
  | checkHolder m =>
    simp only [execInstr, Option.ite_none_right_eq_some, Option.some.injEq] at h
    obtain ⟨-, rfl⟩ := h
    exact ⟨advances_goto s c, rfl, [], hnil⟩
  | popWaiting m =>
    simp only [execInstr] at h
    cases htasks : (s.mutex m).waitingTasks with
    | nil =>
      simp only [htasks, Option.some.injEq] at h
      exact h ▸ ⟨advances_goto s c, rfl, [], hnil⟩
    | cons task tasks =>
      simp only [htasks, Option.some.injEq] at h
      subst h
      have hadvances : Advances s ((s.setMutex m { s.mutex m with waitingTasks := tasks }).goto
          (useHeap false ++ .resume task :: c)) := advances_setMutex (by simp [htasks])
      have hheap := hadvances.available .heap (hi (by simp [htasks]))
      refine ⟨hadvances, rfl, useHeap false ++ [.resume task], by simp [code, goto], ?_⟩
      simpa [useHeap, CalmInstr] using hheap
  | resume task =>
    simp only [execInstr, wake, Option.map_eq_some_iff, Option.ite_none_right_eq_some,
      Option.some.injEq] at h
    obtain ⟨_, ⟨-, rfl⟩, rfl⟩ := h
    exact ⟨⟨fun _ h => h, fun _ h => h⟩, rfl, [], hnil⟩
  | sleep =>
    simp only [execInstr, Option.ite_none_right_eq_some, Option.some.injEq] at h
    obtain ⟨-, rfl⟩ := h
    exact ⟨⟨fun _ h => h, fun _ h => h⟩, rfl, [], hnil⟩
  | heap grows =>
    obtain rfl : grows = false := hi
    cases h
    have hq : s.nesting s.cpu.current = .heap := by
      cases hq : s.nesting s.cpu.current <;> simp_all
    -- whoever has the lock of the waiting tasks has the heap lock, and that is the current task
    have hwaiting : s.Available (.waiting .kernelSpace) := by
      intro t ht
      have := (hn.waiting t ht).1
      simp_all [(nesting_eq_heap hq).1]
    refine ⟨advances_goto s _, rfl, (List.replicate n (page false)).flatten,
      by simp [code, goto], ?_⟩
    intro j hj
    obtain ⟨l, hl, hj⟩ := List.mem_flatten.mp hj
    obtain rfl := List.eq_of_mem_replicate hl
    refine CalmInstr.advance (advances_goto s _) ?_
    simp only [page, Instr.lock, unlock, Bool.false_eq_true, if_false, List.nil_append,
      List.cons_append, List.mem_cons, List.not_mem_nil, or_false] at hj
    rcases hj with rfl | rfl | rfl | rfl | rfl | rfl | rfl | rfl
    all_goals simp [CalmInstr, hn.empty, hwaiting]
  | map grows =>
    obtain rfl : grows = false := hi
    cases h
    exact ⟨advances_goto s _, rfl, [], hnil⟩
  | pushWaiting | schedOff | schedOn | yield | test | subscribe | read | write | wakeup =>
    exact absurd hi id

/-- With the scheduler off the current task is on its way to turn it on. -/
structure Unwaiting (s : Locking τ μ κ) : Prop where
  nested : Nested s
  brief : ∀ t, Brief (s.cpu.pc t)
  calm : s.cpu.schedEnable = false → s.Calm s.code

omit [DecidableEq μ] [DecidableEq κ] in
theorem unwaiting_init (buffer : ℕ → UInt8) (current : τ) :
    Unwaiting (init buffer current : Locking τ μ κ) :=
  ⟨nested_init buffer current, fun _ => trivial, fun h => by cases h⟩

omit [DecidableEq τ] [DecidableEq μ] [DecidableEq κ] in
theorem calm_of_sleepAndUnlock (hc : SleepAndUnlock c) (hcode : s.code = .schedOff :: c)
    (hquiet : ∀ q ∈ unlocks s.code, s.Available (.waiting (.queue q)) ∧
      ((s.mutex (.queue q)).waitingTasks ≠ [] → s.Available .heap)) : s.Calm c := by
  rw [hcode] at hquiet
  cases hc with
  | spinlock m c => exact ⟨[.sleep, .unspin (.waiting m)], c, rfl, by simp [CalmInstr]⟩
  | mutex q c =>
    obtain ⟨hwaiting, hheap⟩ := hquiet q rfl
    refine ⟨.sleep :: unlock (.queue q), c, rfl, ?_⟩
    simpa [unlock, CalmInstr] using ⟨hwaiting, hheap⟩

theorem execInstr_schedEnable (h : s.execInstr n c i = some s') (hoff : i ≠ .schedOff)
    (hon : i ≠ .schedOn) : s'.cpu.schedEnable = s.cpu.schedEnable := by
  cases i with
  | spin | acquire =>
    simp only [execInstr, Option.some.injEq] at h
    subst h
    split <;> rfl
  | popWaiting | wakeup =>
    simp only [execInstr] at h
    split at h <;> cases h <;> rfl
  | resume task =>
    simp only [execInstr, wake, Option.map_eq_some_iff, Option.ite_none_right_eq_some,
      Option.some.injEq] at h
    obtain ⟨_, ⟨-, rfl⟩, rfl⟩ := h
    rfl
  | unspin | checkHolder | sleep =>
    simp only [execInstr, Option.ite_none_right_eq_some, Option.some.injEq] at h
    obtain ⟨-, rfl⟩ := h
    rfl
  | read | write =>
    simp only [execInstr, Option.map_eq_some_iff] at h
    obtain ⟨_, -, rfl⟩ := h
    rfl
  | setHolder | clearHolder | clearLock | pushWaiting | subscribe | heap | map | test =>
    cases h
    rfl
  | schedOff => exact absurd rfl hoff
  | schedOn => exact absurd rfl hon
  | yield => cases h

/-- The scheduler is turned off by `s_schedEnable = false` only. -/
theorem Unwaiting.turnOff (hs : Unwaiting s) (hcode : s.code = i :: c)
    (hquiet : s.Quiet (.exec n)) (hon : s.cpu.schedEnable = true)
    (h : s.execInstr n c i = some s') (hoff : s'.cpu.schedEnable = false) : s'.Calm s'.code := by
  have hi : i = .schedOff := by
    by_contra hne
    have hne' : i ≠ .schedOn := by
      rintro rfl
      cases h
      cases hoff
    rw [execInstr_schedEnable h hne hne', hon] at hoff
    cases hoff
  subst hi
  have hbrief : Brief (.schedOff :: c) := hcode ▸ hs.brief s.cpu.current
  obtain ⟨d, e, hd, hall⟩ := calm_of_sleepAndUnlock hbrief.1 hcode hquiet
  cases h
  refine ⟨d, e, by simpa [code, goto] using hd, fun j hj => ?_⟩
  exact (hall j hj).advance ⟨fun _ h => h, fun _ h => h⟩

/-- The instructions before `s_schedEnable = true` lead to it. -/
theorem Calm.exec (hn : Nested s) (hcalm : s.Calm s.code) (hcode : s.code = i :: c)
    (h : s.execInstr n c i = some s') (hoff : s'.cpu.schedEnable = false) : s'.Calm s'.code := by
  obtain ⟨d, e, hd, hall⟩ := hcalm
  cases d with
  | nil =>
    obtain ⟨rfl, -⟩ : i = .schedOn ∧ c = e := by simpa [hcode] using hd
    cases h
    cases hoff
  | cons j d =>
    obtain ⟨rfl, rfl⟩ : i = j ∧ c = d ++ .schedOn :: e := by simpa [hcode] using hd
    obtain ⟨hadvances, -, x, hx, hcalm⟩ := (hall i List.mem_cons_self).exec hn hcode h
    refine ⟨x ++ d, e, by rw [hx, List.append_assoc], ?_⟩
    intro j hj
    rcases List.mem_append.mp hj with hj | hj
    · exact hcalm j hj
    · exact (hall j (List.mem_cons_of_mem i hj)).advance hadvances

theorem Unwaiting.step (hs : Unwaiting s) {e : Event τ μ κ} (hquiet : s.Quiet e)
    (h : s.step e = some s') : Unwaiting s' := by
  refine ⟨hs.nested.step h, brief_step hs.brief h, fun hoff' => ?_⟩
  cases e with
  | call c =>
    simp only [Locking.step, Option.ite_none_right_eq_some, Option.some.injEq] at h
    obtain ⟨hcode, rfl⟩ := h
    obtain ⟨d, e, hd, -⟩ := hs.calm hoff'
    simp [hcode] at hd
  | exec n =>
    simp only [Locking.step] at h
    split at h
    case h_1 => cases h
    case h_2 i c hcode =>
      cases hoff : s.cpu.schedEnable with
      | true => exact hs.turnOff hcode hquiet hoff h hoff'
      | false => exact (hs.calm hoff).exec hs.nested hcode h hoff'
  | yield next =>
    simp only [Locking.step] at h
    split at h
    case h_1 c hcode =>
      have hoff : s.cpu.schedEnable = false := by
        split_ifs at h <;> cases h <;> exact hoff'
      obtain ⟨d, e, hd, hall⟩ := hs.calm hoff
      cases d with
      | nil => simp [hcode] at hd
      | cons j d =>
        obtain ⟨rfl, -⟩ : .yield = j ∧ c = d ++ .schedOn :: e := by simpa [hcode] using hd
        exact absurd (hall .yield List.mem_cons_self) id
    case h_2 => cases h
  | preempt next =>
    simp only [Locking.step, Option.ite_none_right_eq_some, Option.some.injEq] at h
    obtain ⟨hnext, rfl⟩ := h
    simp_all [Cpu.schedulable]

omit [DecidableEq μ] [DecidableEq κ] in
theorem Unwaiting.not_stuck (hs : Unwaiting s) : ¬ Stuck s := by
  rintro ⟨hoff, x, hspin, hx⟩
  obtain ⟨c, hcode⟩ := spinsOn_eq hspin
  obtain ⟨d, e, hd, hall⟩ := hs.calm hoff
  cases d with
  | nil => simp [hcode] at hd
  | cons j d =>
    obtain ⟨rfl, -⟩ : .spin x = j ∧ c = d ++ .schedOn :: e := by simpa [hcode] using hd
    exact hx (hall (.spin x) List.mem_cons_self)

theorem Stuck.step (hs : Stuck s) {e : Event τ μ κ} (h : s.step e = some s') : s' = s := by
  obtain ⟨hoff, x, hspin, hx⟩ := hs
  obtain ⟨c, hcode⟩ := spinsOn_eq hspin
  cases e with
  | call d => simp [Locking.step, hcode] at h
  | exec n =>
    obtain ⟨t, ht⟩ : ∃ t, s.spin x = some t := by
      by_contra hnone
      exact hx fun t ht => absurd ⟨t, ht⟩ hnone
    simp only [Locking.step, hcode, execInstr, ht, Option.some.injEq] at h
    exact h.symm
  | yield next => simp [Locking.step, hcode] at h
  | preempt next => simp [Locking.step, Cpu.schedulable, hoff] at h

/-- If no other task has the locks of a mutex when `sleepAndUnlock` is called with it, nobody ever
waits with the scheduler off. -/
theorem not_stuck_of_quiet (buffer : ℕ → UInt8) (current : τ) (s : Locking τ μ κ)
    (h : Run.Reachable step Quiet (init buffer current) s) : ¬ Stuck s := by
  have hs : Unwaiting s :=
    h.invariant (unwaiting_init buffer current) fun _ _ _ hs hquiet hstep => hs.step hquiet hstep
  exact hs.not_stuck

/-- A reader of an empty queue gives up its mutex for a writer, which is on the list. -/
def handedOver : List (Event Bool Unit Unit) :=
  [.call (.read () 1), .exec 0, .exec 0, .exec 0, .exec 0, .exec 0, .exec 0, .preempt true,
    .call (.write () [7]), .exec 0, .exec 0, .exec 0, .exec 0, .exec 0, .exec 0, .exec 0, .exec 0,
    .exec 0, .exec 0, .yield false, .exec 0, .exec 0, .exec 0, .exec 0, .exec 0, .exec 0, .exec 0,
    .exec 0]

theorem not_stuck_of_quiet_handedOver :
    ∃ s, Run.guardedRun step Quiet (init (fun _ => 0) false) handedOver = some s ∧
      s.cpu.schedEnable = false ∧ spinsOn s.code = some .heap ∧ ¬ Stuck s := by
  have hrun : (Run.guardedRun step Quiet (init (fun _ => 0) false) handedOver).map
      (fun s => (s.cpu.schedEnable, spinsOn s.code)) = some (false, some .heap) := by decide_cbv
  obtain ⟨s, hs, hspin⟩ := Option.map_eq_some_iff.mp hrun
  obtain ⟨hoff, hspin⟩ := Prod.mk.inj hspin
  exact ⟨s, hs, hoff, hspin, not_stuck_of_quiet _ _ s (Run.reachable_of_guardedRun hs)⟩

/-- The writer is interrupted when it has the lock of the waiting tasks. -/
def interrupted : List (Event Bool Unit Unit) :=
  [.call (.read () 1), .exec 0, .exec 0, .exec 0, .exec 0, .exec 0, .exec 0, .preempt true,
    .call (.write () [7]), .exec 0, .exec 0, .preempt false, .exec 0, .exec 0, .exec 0, .exec 0,
    .exec 0, .exec 0]

theorem not_forall_not_stuck : ¬ ∀ s : Locking Bool Unit Unit,
    Run.Reachable step (fun _ _ => True) (init (fun _ => 0) false) s → ¬ Stuck s := by
  intro h
  have hrun : (interrupted.foldlM step (init (fun _ => 0) false)).map
      (fun s => decide (Stuck s)) = some true := by decide_cbv
  obtain ⟨s, hs, hstuck⟩ := Option.map_eq_some_iff.mp hrun
  exact h s (Run.reachable_of_foldlM hs) (of_decide_eq_true hstuck)

end Locking

end Koerix
