import Koerix.Sync.Code

/-! # The heap below the heap

The heap calls the mutex of the kernel address space, and a contended mutex calls
the heap. The code of a task is checked by an automaton whose phases say which of
the two locks the task has. Nobody uses the mutex of the kernel address space
without the heap lock, so it is never contended, and the heap is never called by
a task that has the heap lock.
-/

namespace Koerix

namespace Locking

open Instr

variable {τ μ κ : Type}

/-- What a task has of the heap lock and the mutex of the kernel address space. -/
inductive Nesting
  | outside
  | heap
  /-- the heap lock and the mutex -/
  | mutex
  /-- the heap lock and `m_waitingTasksLock` of the mutex -/
  | waiting
  deriving DecidableEq

/-- The instructions on mutexes other than that of the kernel address space. -/
@[simp] def Nesting.afterMutex : Nesting → MutexId μ κ → Option Nesting
  | .outside, .queue _ | .outside, .other _ => some .outside
  | _, _ => none

/-- What a task has after an instruction, if it may come to execute it. -/
@[simp] def Nesting.after : Nesting → Instr τ μ κ → Option Nesting
  | .outside, .spin .heap => some .heap
  | .heap, .unspin .heap => some .outside
  | .heap, .spin .pageMap | .heap, .unspin .pageMap => some .heap
  | .mutex, .spin .pageMap | .mutex, .unspin .pageMap => some .mutex
  | .heap, .acquire .kernelSpace => some .mutex
  | .mutex, .setHolder .kernelSpace | .mutex, .checkHolder .kernelSpace => some .mutex
  | .mutex, .clearHolder .kernelSpace => some .mutex
  | .mutex, .clearLock .kernelSpace => some .heap
  | .heap, .spin (.waiting .kernelSpace) => some .waiting
  | .waiting, .popWaiting .kernelSpace => some .waiting
  | .waiting, .unspin (.waiting .kernelSpace) => some .heap
  | .heap, .heap _ => some .heap
  | .mutex, .map _ => some .mutex
  | p, .spin (.waiting m) | p, .unspin (.waiting m) => p.afterMutex m
  | p, .acquire m | p, .setHolder m | p, .checkHolder m | p, .clearHolder m => p.afterMutex m
  | p, .clearLock m | p, .pushWaiting m | p, .popWaiting m => p.afterMutex m
  | .outside, .resume _ | .outside, .schedOff | .outside, .sleep => some .outside
  | .outside, .schedOn | .outside, .yield | .outside, .test _ _ => some .outside
  | .outside, .subscribe _ | .outside, .read _ _ | .outside, .write _ _ => some .outside
  | .outside, .wakeup _ => some .outside
  | _, _ => none

/-- The code runs from one phase to another. -/
def Runs (p : Nesting) (c : List (Instr τ μ κ)) (p' : Nesting) : Prop :=
  c.foldlM Nesting.after p = some p'

theorem runs_nil (p : Nesting) : Runs p ([] : List (Instr τ μ κ)) p := rfl

theorem runs_cons {p p' : Nesting} {i : Instr τ μ κ} {c : List (Instr τ μ κ)} :
    Runs p (i :: c) p' ↔ ∃ p₁, p.after i = some p₁ ∧ Runs p₁ c p' := by
  simp [Runs, Option.bind_eq_some_iff]

theorem Runs.append {p p₁ p' : Nesting} {c d : List (Instr τ μ κ)} (hc : Runs p c p₁)
    (hd : Runs p₁ d p') : Runs p (c ++ d) p' := by
  rw [Runs, List.foldlM_append, show c.foldlM _ p = _ from hc]
  exact hd

theorem Runs.flatten {p : Nesting} {c : List (Instr τ μ κ)} (hc : Runs p c p) (n : ℕ) :
    Runs p (List.replicate n c).flatten p := by
  induction n with
  | zero => exact runs_nil p
  | succ n ih =>
    rw [List.replicate_succ, List.flatten_cons]
    exact hc.append ih

theorem runs_useHeap (grows : Bool) :
    Runs .outside (useHeap grows : List (Instr τ μ κ)) .outside := rfl

theorem runs_page (grows : Bool) : Runs .heap (page grows : List (Instr τ μ κ)) .heap := by
  cases grows <;> rfl

theorem runs_allocPage : Runs .mutex (allocPage : List (Instr τ μ κ)) .mutex := rfl

theorem runs_wait {m : MutexId μ κ} (hm : m ≠ .kernelSpace) :
    Runs .outside (wait m : List (Instr τ μ κ)) .outside := by
  cases m with
  | kernelSpace => exact absurd rfl hm
  | queue q => rfl
  | other m => rfl

theorem runs_waitQueue (q : κ) : Runs .outside (waitQueue q : List (Instr τ μ κ)) .outside := rfl

theorem runs_call (c : Call μ κ) : Runs .outside (c.code : List (Instr τ μ κ)) .outside := by
  cases c <;> rfl

variable [DecidableEq τ]

/-- The phase in which a task is. -/
def nesting (s : Locking τ μ κ) (t : τ) : Nesting :=
  if s.spin .heap ≠ some t then .outside
  else if s.spin (.waiting .kernelSpace) = some t then .waiting
  else if (s.mutex .kernelSpace).lock then .mutex
  else .heap

/-- The code of every task fits its phase, and the mutex of the kernel address space is used by the
task that has the heap lock. -/
structure Nested (s : Locking τ μ κ) : Prop where
  runs : ∀ t, Runs (s.nesting t) (s.cpu.pc t) .outside
  waiting : ∀ t, s.spin (.waiting .kernelSpace) = some t →
    s.spin .heap = some t ∧ (s.mutex .kernelSpace).lock = false
  lock : (s.mutex .kernelSpace).lock = true → s.spin .heap ≠ none
  empty : (s.mutex .kernelSpace).waitingTasks = []

theorem nested_init (buffer : ℕ → UInt8) (current : τ) :
    Nested (init buffer current : Locking τ μ κ) where
  runs t := by simp [nesting, init, Cpu.init, Runs]
  waiting t ht := by cases ht
  lock h := by cases h
  empty := rfl

variable {s s' : Locking τ μ κ} {t : τ} {p : Nesting} {d : List (Instr τ μ κ)}

theorem nesting_of_ne (ht : s.spin .heap ≠ some t) : s.nesting t = .outside := by
  rw [nesting, if_pos ht]

theorem nesting_eq_outside : s.nesting t = .outside ↔ s.spin .heap ≠ some t := by
  rw [nesting]
  split_ifs <;> simp_all

theorem nesting_eq_heap (h : s.nesting t = .heap) : s.spin .heap = some t ∧
    s.spin (.waiting .kernelSpace) ≠ some t ∧ (s.mutex .kernelSpace).lock = false := by
  rw [nesting] at h
  split_ifs at h
  simp_all

theorem nesting_eq_mutex (h : s.nesting t = .mutex) : s.spin .heap = some t ∧
    s.spin (.waiting .kernelSpace) ≠ some t ∧ (s.mutex .kernelSpace).lock = true := by
  rw [nesting] at h
  split_ifs at h
  simp_all

theorem nesting_eq_waiting (h : s.nesting t = .waiting) : s.spin .heap = some t ∧
    s.spin (.waiting .kernelSpace) = some t := by
  rw [nesting] at h
  split_ifs at h
  simp_all

namespace Nested

/-- A step that leaves the heap lock and the mutex of the kernel address space as they are. -/
theorem keep (hn : Nested s) (hheap : s'.spin .heap = s.spin .heap)
    (hwaiting : s'.spin (.waiting .kernelSpace) = s.spin (.waiting .kernelSpace))
    (hlock : (s'.mutex .kernelSpace).lock = (s.mutex .kernelSpace).lock)
    (hempty : (s'.mutex .kernelSpace).waitingTasks = (s.mutex .kernelSpace).waitingTasks)
    (hpc : s'.cpu.pc = Function.update s.cpu.pc s.cpu.current d)
    (hd : Runs (s.nesting s.cpu.current) d .outside) : Nested s' := by
  have hnesting : ∀ t, s'.nesting t = s.nesting t := by
    intro t
    rw [nesting, nesting, hheap, hwaiting, hlock]
  refine ⟨fun t => ?_, ?_, ?_, hempty.trans hn.empty⟩
  · rw [hnesting, hpc]
    rcases eq_or_ne t s.cpu.current with rfl | hne
    · rwa [Function.update_self]
    · rw [Function.update_of_ne hne]
      exact hn.runs t
  · rw [hheap, hwaiting, hlock]
    exact hn.waiting
  · rw [hheap, hlock]
    exact hn.lock

theorem move (hn : Nested s) (hbefore : ∀ t, s.spin .heap = some t → t = s.cpu.current)
    (hafter : ∀ t, s'.spin .heap = some t → t = s.cpu.current)
    (hpc : s'.cpu.pc = Function.update s.cpu.pc s.cpu.current d)
    (hd : Runs (s'.nesting s.cpu.current) d .outside)
    (hwaiting : ∀ t, s'.spin (.waiting .kernelSpace) = some t →
      s'.spin .heap = some t ∧ (s'.mutex .kernelSpace).lock = false)
    (hlock : (s'.mutex .kernelSpace).lock = true → s'.spin .heap ≠ none)
    (hempty : (s'.mutex .kernelSpace).waitingTasks = (s.mutex .kernelSpace).waitingTasks) :
    Nested s' := by
  refine ⟨fun t => ?_, hwaiting, hlock, hempty.trans hn.empty⟩
  rw [hpc]
  rcases eq_or_ne t s.cpu.current with rfl | hne
  · rwa [Function.update_self]
  · have hrun := hn.runs t
    rw [nesting_of_ne fun h => hne (hbefore t h)] at hrun
    rw [Function.update_of_ne hne, nesting_of_ne fun h => hne (hafter t h)]
    exact hrun

end Nested

variable [DecidableEq μ] [DecidableEq κ] {n : ℕ} {c : List (Instr τ μ κ)}

omit [DecidableEq μ] [DecidableEq κ] in
@[simp] theorem goto_spin (s : Locking τ μ κ) : (s.goto c).spin = s.spin := rfl

omit [DecidableEq μ] [DecidableEq κ] in
@[simp] theorem goto_mutex (s : Locking τ μ κ) : (s.goto c).mutex = s.mutex := rfl

omit [DecidableEq μ] [DecidableEq κ] in
@[simp] theorem goto_current (s : Locking τ μ κ) :
    (s.goto c).cpu.current = s.cpu.current := rfl

omit [DecidableEq τ] in
theorem setMutex_eq (m : MutexId μ κ) (w : MutexWord τ) :
    (s.setMutex m w).mutex m = w := Function.update_self ..

omit [DecidableEq τ] in
theorem setMutex_kernelSpace {m : MutexId μ κ} (hm : m ≠ .kernelSpace) (w : MutexWord τ) :
    (s.setMutex m w).mutex .kernelSpace = s.mutex .kernelSpace :=
  Function.update_of_ne hm.symm ..

namespace Nested

theorem spin_heap (hn : Nested s) (hfree : s.spin .heap = none)
    (hc : Runs .heap c .outside) :
    Nested ((s.setSpin .heap (some s.cpu.current)).goto c) := by
  have hwaiting : s.spin (.waiting .kernelSpace) = none := by
    cases h : s.spin (.waiting .kernelSpace) with
    | none => rfl
    | some t => simp [(hn.waiting t h).1] at hfree
  have hlock : (s.mutex .kernelSpace).lock = false := by
    cases h : (s.mutex .kernelSpace).lock with
    | false => rfl
    | true => exact absurd hfree (hn.lock h)
  refine hn.move (by simp [hfree]) ?_ rfl ?_ ?_ ?_ rfl
  · intro t ht
    simpa [setSpin, eq_comm] using ht
  · simpa [nesting, setSpin, hwaiting, hlock] using hc
  · simp [setSpin, hwaiting]
  · simp [hlock, setSpin]

theorem unspin_heap (hn : Nested s) (hp : s.nesting s.cpu.current = .heap)
    (hc : Runs .outside c .outside) : Nested ((s.setSpin .heap none).goto c) := by
  obtain ⟨hheap, hwaiting, hlock⟩ := nesting_eq_heap hp
  refine hn.move (by simp [hheap, eq_comm]) ?_ rfl ?_ ?_ ?_ rfl
  · intro t ht
    simp [setSpin] at ht
  · simpa [nesting, setSpin] using hc
  · intro t ht
    have ht' : s.spin (.waiting .kernelSpace) = some t := by simpa [setSpin] using ht
    have := (hn.waiting t ht').1
    simp_all
  · simp [hlock, setSpin]

theorem spin_waiting (hn : Nested s) (hp : s.nesting s.cpu.current = .heap)
    (hc : Runs .waiting c .outside) :
    Nested ((s.setSpin (.waiting .kernelSpace) (some s.cpu.current)).goto c) := by
  obtain ⟨hheap, -, hlock⟩ := nesting_eq_heap hp
  refine hn.move (by simp [hheap, eq_comm]) (by simp [setSpin, hheap, eq_comm]) rfl ?_ ?_ ?_ rfl
  · simpa [nesting, setSpin, hheap] using hc
  · intro t ht
    have : s.cpu.current = t := by simpa [setSpin] using ht
    simp [setSpin, hheap, hlock, this]
  · simp [setSpin, hlock]

theorem unspin_waiting (hn : Nested s) (hp : s.nesting s.cpu.current = .waiting)
    (hc : Runs .heap c .outside) :
    Nested ((s.setSpin (.waiting .kernelSpace) none).goto c) := by
  obtain ⟨hheap, hwaiting⟩ := nesting_eq_waiting hp
  have hlock := (hn.waiting _ hwaiting).2
  refine hn.move (by simp [hheap, eq_comm]) (by simp [setSpin, hheap, eq_comm]) rfl ?_ ?_ ?_ rfl
  · simpa [nesting, setSpin, hheap, hlock] using hc
  · simp [setSpin]
  · simp [setSpin, hlock]

theorem setLock (hn : Nested s) (hheap : s.spin .heap = some s.cpu.current)
    (hwaiting : s.spin (.waiting .kernelSpace) ≠ some s.cpu.current) (b : Bool)
    (hc : Runs (if b then .mutex else .heap) d .outside) :
    Nested ((s.setMutex .kernelSpace { s.mutex .kernelSpace with lock := b }).goto d) := by
  have hnone : s.spin (.waiting .kernelSpace) = none := by
    cases h : s.spin (.waiting .kernelSpace) with
    | none => rfl
    | some t =>
      have := (hn.waiting t h).1
      simp_all
  refine hn.move (by simp [hheap, eq_comm]) (by simp [setMutex, hheap, eq_comm]) rfl ?_ ?_ ?_ ?_
  · simpa [nesting, setMutex, hheap, hnone] using hc
  · simp [setMutex, hnone]
  · simp [setMutex, hheap]
  · simp [setMutex]

theorem setMutex (hn : Nested s) {m : MutexId μ κ} (hm : m ≠ .kernelSpace) (w : MutexWord τ)
    (hd : Runs (s.nesting s.cpu.current) d .outside) : Nested ((s.setMutex m w).goto d) := by
  have heq := setMutex_kernelSpace (s := s) hm w
  refine hn.keep rfl rfl ?_ ?_ rfl hd
  · rw [goto_mutex, heq]
  · rw [goto_mutex, heq]

theorem setHeldBy (hn : Nested s) (m : MutexId μ κ) (t : Option τ)
    (hd : Runs (s.nesting s.cpu.current) d .outside) :
    Nested ((s.setMutex m { s.mutex m with heldBy := t }).goto d) := by
  rcases eq_or_ne m .kernelSpace with rfl | hm
  · refine hn.keep rfl rfl ?_ ?_ rfl hd
    · rw [goto_mutex, setMutex_eq]
    · rw [goto_mutex, setMutex_eq]
  · exact hn.setMutex hm _ hd

theorem setSpin (hn : Nested s) {x : SpinId μ κ} (hheap : x ≠ .heap)
    (hwaiting : x ≠ .waiting .kernelSpace) (t : Option τ)
    (hd : Runs (s.nesting s.cpu.current) d .outside) : Nested ((s.setSpin x t).goto d) :=
  hn.keep (Function.update_of_ne hheap.symm ..) (Function.update_of_ne hwaiting.symm ..) rfl rfl rfl
    hd

theorem spin (hn : Nested s) {x : SpinId μ κ} (hfree : s.spin x = none)
    (hrun : Runs (s.nesting s.cpu.current) (.spin x :: c) .outside) :
    Nested ((s.setSpin x (some s.cpu.current)).goto c) := by
  obtain ⟨p, hp, hc⟩ := runs_cons.mp hrun
  generalize hq : s.nesting s.cpu.current = q at hp
  cases x with
  | heap => cases q <;> simp at hp; exact hn.spin_heap hfree (hp ▸ hc)
  | pageMap =>
    have : p = q := by cases q <;> simp_all
    exact hn.setSpin (by simp) (by simp) _ (by rwa [hq, ← this])
  | waiting m =>
    cases m with
    | kernelSpace => cases q <;> simp at hp; exact hn.spin_waiting hq (hp ▸ hc)
    | queue | other =>
      cases q <;> simp at hp
      subst hp
      exact hn.setSpin (by simp) (by simp) _ (by rwa [hq])

theorem unspin (hn : Nested s) {x : SpinId μ κ}
    (hrun : Runs (s.nesting s.cpu.current) (.unspin x :: c) .outside) :
    Nested ((s.setSpin x none).goto c) := by
  obtain ⟨p, hp, hc⟩ := runs_cons.mp hrun
  generalize hq : s.nesting s.cpu.current = q at hp
  cases x with
  | heap => cases q <;> simp at hp; exact hn.unspin_heap hq (hp ▸ hc)
  | pageMap =>
    have : p = q := by cases q <;> simp_all
    exact hn.setSpin (by simp) (by simp) _ (by rwa [hq, ← this])
  | waiting m =>
    cases m with
    | kernelSpace => cases q <;> simp at hp; exact hn.unspin_waiting hq (hp ▸ hc)
    | queue | other =>
      cases q <;> simp at hp
      subst hp
      exact hn.setSpin (by simp) (by simp) _ (by rwa [hq])

theorem acquire (hn : Nested s) {m : MutexId μ κ}
    (hrun : Runs (s.nesting s.cpu.current) (.acquire m :: c) .outside) :
    Nested (if (s.mutex m).lock then s.goto (wait m ++ c)
      else (s.setMutex m { s.mutex m with lock := true }).goto (.setHolder m :: c)) := by
  obtain ⟨p, hp, hc⟩ := runs_cons.mp hrun
  generalize hq : s.nesting s.cpu.current = q at hp
  cases m with
  | kernelSpace =>
    cases q <;> simp at hp
    obtain ⟨hheap, hwaiting, hlock⟩ := nesting_eq_heap hq
    rw [if_neg (by simp [hlock])]
    exact hn.setLock hheap hwaiting true (runs_cons.mpr ⟨.mutex, rfl, hp ▸ hc⟩)
  | queue | other =>
    cases q <;> simp at hp
    subst hp
    split_ifs with hlock
    · refine hn.keep rfl rfl rfl rfl rfl ?_
      rw [hq]
      exact (runs_wait (by simp)).append hc
    · refine hn.setMutex (by simp) _ ?_
      rw [hq]
      exact runs_cons.mpr ⟨.outside, rfl, hc⟩

theorem clearLock (hn : Nested s) {m : MutexId μ κ}
    (hrun : Runs (s.nesting s.cpu.current) (.clearLock m :: c) .outside) :
    Nested ((s.setMutex m { s.mutex m with lock := false }).goto c) := by
  obtain ⟨p, hp, hc⟩ := runs_cons.mp hrun
  generalize hq : s.nesting s.cpu.current = q at hp
  cases m with
  | kernelSpace =>
    cases q <;> simp at hp
    obtain ⟨hheap, hwaiting, -⟩ := nesting_eq_mutex hq
    exact hn.setLock hheap hwaiting false (hp ▸ hc)
  | queue | other =>
    cases q <;> simp at hp
    subst hp
    exact hn.setMutex (by simp) _ (by rwa [hq])

omit [DecidableEq τ] [DecidableEq μ] [DecidableEq κ] in
theorem runs_tail {i : Instr τ μ κ} (hrun : Runs p (i :: c) .outside)
    (hsame : ∀ p', p.after i = some p' → p' = p) : Runs p c .outside := by
  obtain ⟨p', hp, hc⟩ := runs_cons.mp hrun
  exact hsame p' hp ▸ hc

theorem exec_spin (hn : Nested s) {x : SpinId μ κ}
    (hrun : Runs (s.nesting s.cpu.current) (.spin x :: c) .outside)
    (h : s.execInstr n c (.spin x) = some s') : Nested s' := by
  simp only [execInstr, Option.some.injEq] at h
  cases hx : s.spin x with
  | some t =>
    rw [hx] at h
    exact h ▸ hn
  | none =>
    rw [hx] at h
    exact h ▸ hn.spin hx hrun

theorem exec_pushWaiting (hn : Nested s) {m : MutexId μ κ}
    (hrun : Runs (s.nesting s.cpu.current) (.pushWaiting m :: c) .outside)
    (h : s.execInstr n c (.pushWaiting m) = some s') : Nested s' := by
  simp only [execInstr, Option.some.injEq] at h
  subst h
  obtain ⟨p, hp, hc⟩ := runs_cons.mp hrun
  generalize hq : s.nesting s.cpu.current = q at hp
  obtain ⟨hm, rfl, rfl⟩ : m ≠ .kernelSpace ∧ q = .outside ∧ p = .outside := by
    cases q <;> cases m <;> simp_all
  exact hn.setMutex hm _ (by rwa [hq])

theorem exec_popWaiting (hn : Nested s) {m : MutexId μ κ}
    (hrun : Runs (s.nesting s.cpu.current) (.popWaiting m :: c) .outside)
    (h : s.execInstr n c (.popWaiting m) = some s') : Nested s' := by
  obtain ⟨p, hp, hc⟩ := runs_cons.mp hrun
  generalize hq : s.nesting s.cpu.current = q at hp hrun
  simp only [execInstr] at h
  cases htasks : (s.mutex m).waitingTasks with
  | nil =>
    simp only [htasks, Option.some.injEq] at h
    have hd := runs_tail hrun (by cases q <;> cases m <;> simp_all)
    exact h ▸ hn.keep rfl rfl rfl rfl rfl (by rwa [hq])
  | cons task tasks =>
    simp only [htasks, Option.some.injEq] at h
    subst h
    have hm : m ≠ .kernelSpace := by
      rintro rfl
      simp [hn.empty] at htasks
    obtain ⟨rfl, rfl⟩ : q = .outside ∧ p = .outside := by
      cases q <;> cases m <;> simp_all
    refine hn.setMutex hm _ ?_
    rw [hq]
    exact (runs_useHeap false).append (runs_cons.mpr ⟨.outside, rfl, hc⟩)

theorem exec_heap (hn : Nested s) {grows : Bool}
    (hrun : Runs (s.nesting s.cpu.current) (.heap grows :: c) .outside)
    (h : s.execInstr n c (.heap grows) = some s') : Nested s' := by
  simp only [execInstr, Option.some.injEq] at h
  subst h
  obtain ⟨p, hp, hc⟩ := runs_cons.mp hrun
  generalize hq : s.nesting s.cpu.current = q at hp
  obtain ⟨rfl, rfl⟩ : q = .heap ∧ p = .heap := by cases q <;> simp_all
  refine hn.keep rfl rfl rfl rfl rfl ?_
  rw [hq]
  exact ((runs_page grows).flatten n).append hc

theorem exec_map (hn : Nested s) {grows : Bool}
    (hrun : Runs (s.nesting s.cpu.current) (.map grows :: c) .outside)
    (h : s.execInstr n c (.map grows) = some s') : Nested s' := by
  simp only [execInstr, Option.some.injEq] at h
  subst h
  obtain ⟨p, hp, hc⟩ := runs_cons.mp hrun
  generalize hq : s.nesting s.cpu.current = q at hp
  obtain ⟨rfl, rfl⟩ : q = .mutex ∧ p = .mutex := by cases q <;> simp_all
  refine hn.keep rfl rfl rfl rfl rfl ?_
  rw [hq]
  refine Runs.append ?_ hc
  split_ifs
  · exact runs_allocPage.flatten n
  · exact runs_nil .mutex

theorem exec_test (hn : Nested s) {k : κ} {len : ℕ}
    (hrun : Runs (s.nesting s.cpu.current) (.test k len :: c) .outside)
    (h : s.execInstr n c (.test k len) = some s') : Nested s' := by
  simp only [execInstr, Option.some.injEq] at h
  subst h
  obtain ⟨p, hp, hc⟩ := runs_cons.mp hrun
  generalize hq : s.nesting s.cpu.current = q at hp
  obtain ⟨rfl, rfl⟩ : q = .outside ∧ p = .outside := by cases q <;> simp_all
  refine hn.keep rfl rfl rfl rfl rfl ?_
  rw [hq]
  split_ifs
  · exact (runs_waitQueue k).append hc
  · exact hc

theorem exec_wakeup (hn : Nested s) {k : κ}
    (hrun : Runs (s.nesting s.cpu.current) (.wakeup k :: c) .outside)
    (h : s.execInstr n c (.wakeup k) = some s') : Nested s' := by
  obtain ⟨p, hp, hc⟩ := runs_cons.mp hrun
  generalize hq : s.nesting s.cpu.current = q at hp hrun
  obtain ⟨rfl, rfl⟩ : q = .outside ∧ p = .outside := by cases q <;> simp_all
  simp only [execInstr] at h
  cases htasks : s.readSubscribers k with
  | nil =>
    simp only [htasks, Option.some.injEq] at h
    exact h ▸ hn.keep rfl rfl rfl rfl rfl (by rwa [hq])
  | cons task tasks =>
    simp only [htasks, Option.some.injEq] at h
    subst h
    refine hn.keep rfl rfl rfl rfl rfl ?_
    rw [hq]
    exact (runs_useHeap false).append (runs_cons.mpr ⟨.outside, rfl, hrun⟩)

/-- The instructions of a task keep the nesting. -/
theorem exec (hn : Nested s) {i : Instr τ μ κ} (hcode : s.code = i :: c)
    (h : s.execInstr n c i = some s') : Nested s' := by
  have hrun : Runs (s.nesting s.cpu.current) (i :: c) .outside := by
    rw [← hcode]
    exact hn.runs s.cpu.current
  have hsame (hi : ∀ p p', p.after i = some p' → p' = p) :
      Runs (s.nesting s.cpu.current) c .outside := runs_tail hrun fun _ hp => hi _ _ hp
  cases i with
  | spin x => exact hn.exec_spin hrun h
  | unspin x =>
    simp only [execInstr, Option.ite_none_right_eq_some, Option.some.injEq] at h
    exact h.2 ▸ hn.unspin hrun
  | acquire m =>
    simp only [execInstr, Option.some.injEq] at h
    exact h ▸ hn.acquire hrun
  | clearLock m =>
    simp only [execInstr, Option.some.injEq] at h
    exact h ▸ hn.clearLock hrun
  | setHolder m | clearHolder m =>
    simp only [execInstr, Option.some.injEq] at h
    exact h ▸ hn.setHeldBy m _ (hsame fun p p' hp => by
      cases p <;> cases m <;> simp at hp <;> exact hp.symm)
  | checkHolder m =>
    simp only [execInstr, Option.ite_none_right_eq_some, Option.some.injEq] at h
    obtain ⟨-, rfl⟩ := h
    exact hn.keep rfl rfl rfl rfl rfl (hsame fun p p' hp => by
      cases p <;> cases m <;> simp at hp <;> exact hp.symm)
  | pushWaiting m => exact hn.exec_pushWaiting hrun h
  | popWaiting m => exact hn.exec_popWaiting hrun h
  | resume task =>
    simp only [execInstr, wake, Option.map_eq_some_iff, Option.ite_none_right_eq_some,
      Option.some.injEq] at h
    obtain ⟨_, ⟨-, rfl⟩, rfl⟩ := h
    exact hn.keep rfl rfl rfl rfl rfl (hsame fun p p' hp => by
      cases p <;> simp at hp; exact hp.symm)
  | schedOff | schedOn | subscribe k =>
    simp only [execInstr, Option.some.injEq] at h
    subst h
    exact hn.keep rfl rfl rfl rfl rfl (hsame fun p p' hp => by
      cases p <;> simp at hp; exact hp.symm)
  | sleep =>
    simp only [execInstr, Option.ite_none_right_eq_some, Option.some.injEq] at h
    obtain ⟨-, rfl⟩ := h
    exact hn.keep rfl rfl rfl rfl rfl (hsame fun p p' hp => by
      cases p <;> simp at hp; exact hp.symm)
  | read k len | write k buffer =>
    simp only [execInstr, Option.map_eq_some_iff] at h
    obtain ⟨_, -, rfl⟩ := h
    exact hn.keep rfl rfl rfl rfl rfl (hsame fun p p' hp => by
      cases p <;> simp at hp; exact hp.symm)
  | heap grows => exact hn.exec_heap hrun h
  | map grows => exact hn.exec_map hrun h
  | test k len => exact hn.exec_test hrun h
  | wakeup k => exact hn.exec_wakeup hrun h
  | yield => simp [execInstr] at h

theorem step (hn : Nested s) {e : Event τ μ κ} (h : s.step e = some s') : Nested s' := by
  cases e with
  | call c =>
    simp only [Locking.step, Option.ite_none_right_eq_some, Option.some.injEq] at h
    obtain ⟨hcode, rfl⟩ := h
    have hrun := hn.runs s.cpu.current
    have hq : s.nesting s.cpu.current = .outside := by
      rw [show s.cpu.pc s.cpu.current = [] from hcode] at hrun
      simpa [Runs] using hrun
    refine hn.keep rfl rfl rfl rfl rfl ?_
    rw [hq]
    exact runs_call c
  | exec n =>
    simp only [Locking.step] at h
    split at h
    · cases h
    · exact hn.exec ‹_› h
  | yield next =>
    simp only [Locking.step] at h
    split at h
    case h_1 c hcode =>
      have hrun := hn.runs s.cpu.current
      rw [show s.cpu.pc s.cpu.current = _ from hcode] at hrun
      have hd := runs_tail hrun (by cases s.nesting s.cpu.current <;> simp)
      split_ifs at h
      · cases h
        exact hn.keep rfl rfl rfl rfl rfl hd
      · cases h
        exact hn.keep rfl rfl rfl rfl rfl hd
    case h_2 => cases h
  | preempt next =>
    simp only [Locking.step, Option.ite_none_right_eq_some, Option.some.injEq] at h
    obtain ⟨-, rfl⟩ := h
    exact hn.keep rfl rfl rfl rfl (Function.update_eq_self ..).symm (hn.runs s.cpu.current)

end Nested

theorem nested_of_reachable {buffer : ℕ → UInt8} {current : τ}
    (h : Run.Reachable step (fun _ _ => True) (init buffer current : Locking τ μ κ) s) : Nested s :=
  h.invariant (nested_init buffer current) fun _ _ _ hn _ hs => hn.step hs

/-- The heap never waits for the mutex of the kernel address space, and nobody who is in the heap
calls it. -/
structure Undisputed (s : Locking τ μ κ) : Prop where
  /-- `Mutex::lock` from `kbrk` finds the mutex free -/
  lock : ∀ t c, s.cpu.pc t = .acquire .kernelSpace :: c → s.spin .heap = some t ∧
    (s.mutex .kernelSpace).lock = false ∧ (s.mutex .kernelSpace).waitingTasks = []
  /-- `Mutex::unlock` finds nobody waiting -/
  unlock : ∀ t c, s.cpu.pc t = .popWaiting .kernelSpace :: c →
    s.spin .heap = some t ∧ (s.mutex .kernelSpace).waitingTasks = []
  /-- `kmalloc` and `kfree` are not called with the heap lock -/
  reenter : ∀ t c, s.cpu.pc t = .spin .heap :: c → s.spin .heap ≠ some t

omit [DecidableEq μ] [DecidableEq κ] in
theorem Nested.head (hn : Nested s) {i : Instr τ μ κ} (hpc : s.cpu.pc t = i :: c) :
    ∃ p, (s.nesting t).after i = some p := by
  obtain ⟨p, hp, -⟩ := runs_cons.mp (hpc ▸ hn.runs t)
  exact ⟨p, hp⟩

omit [DecidableEq μ] [DecidableEq κ] in
theorem Nested.undisputed (hn : Nested s) : Undisputed s := by
  constructor
  · intro t c hpc
    obtain ⟨p, hp⟩ := hn.head hpc
    have hq : s.nesting t = .heap := by cases hq : s.nesting t <;> simp_all
    obtain ⟨hheap, -, hlock⟩ := nesting_eq_heap hq
    exact ⟨hheap, hlock, hn.empty⟩
  · intro t c hpc
    obtain ⟨p, hp⟩ := hn.head hpc
    have hq : s.nesting t = .waiting := by cases hq : s.nesting t <;> simp_all
    exact ⟨(nesting_eq_waiting hq).1, hn.empty⟩
  · intro t c hpc
    obtain ⟨p, hp⟩ := hn.head hpc
    have hq : s.nesting t = .outside := by cases hq : s.nesting t <;> simp_all
    exact nesting_eq_outside.mp hq

/-- However the tasks interleave, the heap does not deadlock on itself. -/
theorem undisputed_of_reachable (buffer : ℕ → UInt8) (current : τ) (s : Locking τ μ κ)
    (h : Run.Reachable step (fun _ _ => True) (init buffer current) s) : Undisputed s :=
  (nested_of_reachable h).undisputed

/-- Both tasks are in `kmalloc`, and the one that has the heap lock is about to map a page. -/
def growing : List (Event Bool Unit Unit) :=
  [.call .kmalloc, .exec 0, .exec 1, .preempt true, .call .kmalloc, .exec 0, .preempt false,
    .exec 0, .exec 0]

theorem undisputed_of_reachable_growing :
    ∃ s, growing.foldlM step (init (fun _ => 0) false) = some s ∧
      (∃ c, s.cpu.pc false = .acquire .kernelSpace :: c) ∧
      (∃ c, s.cpu.pc true = .spin .heap :: c) ∧ Undisputed s := by
  obtain ⟨s, hs, hpc⟩ : ∃ s, growing.foldlM step (init (fun _ => 0) false) = some s ∧
      (∃ c, s.cpu.pc false = .acquire .kernelSpace :: c) ∧ ∃ c, s.cpu.pc true = .spin .heap :: c :=
    ⟨_, rfl, ⟨_, rfl⟩, ⟨_, rfl⟩⟩
  exact ⟨s, hs, hpc.1, hpc.2, undisputed_of_reachable _ _ s (Run.reachable_of_foldlM hs)⟩

end Locking

end Koerix
