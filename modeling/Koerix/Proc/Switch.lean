import Koerix.Proc.Reaper

/-! # The active address space

The processes and their tasks on one processor: only the current task makes
steps, `schedule()` exchanges it and loads CR3, `clone()` loads CR3 as well,
and the idle task deletes processes together with their address spaces. The
memory of a deleted `AddrSpace` is read until a new one lies there.
-/

namespace Koerix

/-- What happens to the `m_context` of a task. -/
inductive ContextEntry (τ κ : Type)
  /-- the constructor of the task or `setContext()` stores a pointer -/
  | stored (t : τ) (ctx : κ)
  /-- `schedule()` switches to the task with a pointer -/
  | resumed (t : τ) (ctx : κ)

/-- The pointer that was stored last for a task, in a log with the newest entry first. -/
def lastStored {τ κ : Type} [DecidableEq τ] (t : τ) : List (ContextEntry τ κ) → Option κ
  | [] => none
  | .stored u ctx :: log => if u = t then some ctx else lastStored t log
  | .resumed _ _ :: log => lastStored t log

/-- The addresses `α` of `AddrSpace` objects, the frames `φ` of their PML4s and the pointers `κ`
to saved contexts. -/
structure Switch (π τ l α φ κ : Type) where
  procs : Procs π τ l
  /-- the `AddrSpace` objects that are constructed and not deleted -/
  live : α → Bool
  /-- `m_pml4` in the memory of an `AddrSpace`; `none` is `-1`, which the destructor leaves -/
  pml4 : α → Option φ
  /-- `s_kernelAddrSpace` -/
  kernel : α
  /-- `m_addrSpace` of a process -/
  procSpace : π → α
  /-- `m_addrSpace` of a task -/
  taskSpace : τ → α
  context : τ → κ
  cr3 : Option φ
  currentTask : Option τ
  idle : τ
  log : List (ContextEntry τ κ)

namespace Switch

open Procs

variable {π τ l α φ κ : Type}

/-- After `AddrSpace::setup()` and `sched::setup()`, with kernel tasks only. -/
def init [DecidableEq τ] [DecidableEq α] (tasks : List τ) (idle : τ) (kernel : α) (pml4 : φ)
    (context : τ → κ) : Switch π τ l α φ κ where
  procs := Procs.init tasks
  live x := decide (x = kernel)
  pml4 _ := some pml4
  kernel := kernel
  procSpace _ := kernel
  taskSpace _ := kernel
  context := context
  cr3 := some pml4
  currentTask := none
  idle := idle
  log := tasks.map fun t => .stored t (context t)

/-- `AddrSpace::apply()`. -/
def apply (s : Switch π τ l α φ κ) (x : α) : Switch π τ l α φ κ := { s with cr3 := s.pml4 x }

variable [DecidableEq π] [DecidableEq τ] [DecidableEq l] [DecidableEq α]

def setContext (s : Switch π τ l α φ κ) (t : τ) (ctx : κ) : Switch π τ l α φ κ :=
  { s with context := Function.update s.context t ctx, log := .stored t ctx :: s.log }

/-- `new AddrSpace()` for a process, at the address `x` and with the frame `p`. -/
def newSpace (s : Switch π τ l α φ κ) (q : π) (x : α) (p : φ) : Switch π τ l α φ κ :=
  { s with
    live := Function.update s.live x true
    pml4 := Function.update s.pml4 x (some p)
    procSpace := Function.update s.procSpace q x }

/-- `~AddrSpace()` at the address `x`. -/
def deleteSpace (s : Switch π τ l α φ κ) (x : α) : Switch π τ l α φ κ :=
  { s with live := Function.update s.live x false, pml4 := Function.update s.pml4 x none }

/-- `sched::core::schedule(ctx)`, when `getNextTask()` returns `next`. -/
def schedule (s : Switch π τ l α φ κ) (ctx : κ) (next : τ) : κ × Switch π τ l α φ κ :=
  if s.currentTask = some next then (ctx, s)
  else
    let changes := s.currentTask.elim true fun t => s.taskSpace t ≠ s.taskSpace next
    let s := s.currentTask.elim s fun t => s.setContext t ctx
    let ctx := s.context next
    let s := if changes then s.apply (s.taskSpace next) else s
    (ctx, { s with currentTask := some next, log := .resumed next ctx :: s.log })

/-- What happens next. -/
inductive Event (π τ l α φ κ : Type)
  /-- a timer interrupt or `yield()` of the current task -/
  | schedule (ctx : κ) (next : τ)
  /-- the current task enters the kernel by a system call -/
  | syscall (ctx : κ)
  /-- the current task calls a constructor of `UserProcess` -/
  | newProcess (q : π) (x : α) (p : φ)
  | fork (q : π) (x : α) (p : φ)
  /-- the end of `clone()` in a fork -/
  | apply
  /-- the current task constructs a `UserTask` -/
  | create (t : τ) (ctx : κ)
  /-- any other step of the current task -/
  | proc (e : Procs.Event π τ l)

/-- The process that the step deletes. -/
def deletes (s : Procs π τ l) : Procs.Event π τ l → Option π
  | .exec a =>
    match s.pc a with
    | .reapTest q _ => if (s.proc q).state = .toBeDeleted then some q else none
    | _ => none
  | _ => none

/-- A step of the current task. -/
def act (s : Switch π τ l α φ κ) (e : Procs.Event π τ l) : Option (Switch π τ l α φ κ) :=
  if s.currentTask = some e.actor then
    (s.procs.step e).map fun procs => { s with procs := procs }
  else none

/-- The process of which the task constructs a `UserTask`. -/
def creating : ProcPc π τ → Option π
  | .addTask q _ | .forkTask q => some q
  | _ => none

def step (s : Switch π τ l α φ κ) : Event π τ l α φ κ → Option (Switch π τ l α φ κ)
  | .schedule ctx next => some (s.schedule ctx next).2
  | .syscall ctx => do
    let t ← s.currentTask
    s.setContext t ctx
  | .newProcess q x p => do
    let a ← s.currentTask
    let s ← s.act (.newProcess a q)
    return s.newSpace q x p
  | .fork q x p => do
    let a ← s.currentTask
    let s ← s.act (.fork a q)
    return s.newSpace q x p
  | .apply => do
    let a ← s.currentTask
    let q ← s.procs.owner a
    return s.apply (s.procSpace q)
  | .create t ctx => do
    let a ← s.currentTask
    let q ← creating (s.procs.pc a)
    let s ← s.act (.create a t)
    return { s with taskSpace := Function.update s.taskSpace t (s.procSpace q) }.setContext t ctx
  | .proc e => do
    let s' ← s.act e
    return (deletes s.procs e).elim s' fun q => s'.deleteSpace (s.procSpace q)

/-- The constructor for a fork has run `clone()`, and next runs `onAddProcess()`. -/
def cloned : ProcPc π τ → Bool
  | .listLock _ true => true
  | _ => false

/-- The step has no event of its own, and the idle task is the reaper. -/
def Plain (s : Switch π τ l α φ κ) : Procs.Event π τ l → Prop
  | .newProcess _ _ | .fork _ _ | .create _ _ => False
  | .reap a => a = s.idle
  | _ => True

/-- Tasks that are known to the scheduler and not killed can be scheduled, new address spaces get
memory and a frame that no other one has, and `clone()` applies at its end. -/
def Legal (s : Switch π τ l α φ κ) : Event π τ l α φ κ → Prop
  | .schedule _ next => s.procs.life next = .running
  | .newProcess _ x p | .fork _ x p => s.live x = false ∧ ∀ y, s.live y = true → s.pml4 y ≠ some p
  | .apply => ∃ a ∈ s.currentTask, cloned (s.procs.pc a) = true
  | .proc e => s.Plain e
  | .syscall _ | .create _ _ => True

instance (s : Switch π τ l α φ κ) : DecidablePred s.Plain
  | .newProcess _ _ | .fork _ _ | .create _ _ => isFalse id
  | .reap a => inferInstanceAs (Decidable (a = s.idle))
  | .enter _ | .leave _ | .acquire _ _ | .release _ _ | .addTask _ | .exit _ _ => isTrue trivial
  | .exec _ | .threadExit _ | .die _ => isTrue trivial

/-- The task runs `checkForDeadProcesses()`. -/
def inReaper : ProcPc π τ → Bool
  | .reapLock | .reapProc _ | .reapTasks _ _ _ | .reapSize _ _ | .reapUnlock _ _ => true
  | .reapTest _ _ | .reapDone => true
  | _ => false

/-- The process that the reaper looks at, with its index in the list of processes. -/
def reapIndex : ProcPc π τ → Option (π × ℕ)
  | .reapTasks q i _ | .reapSize q i | .reapUnlock q i | .reapTest q i => some (q, i)
  | _ => none

/-- What a plain step of the task `a` keeps. -/
structure Keeps (s s' : Procs π τ l) (a : τ) (e : Procs.Event π τ l) : Prop where
  pc : ∀ b, b ≠ a → s'.pc b = s.pc b
  owner : s'.owner = s.owner
  created : s'.created = s.created
  unborn : ∀ t, s'.life t = .unborn ↔ s.life t = .unborn
  actor : s'.life a = .running ∨ s'.life a = .killed
  phase : ∀ q, s'.phase q = .unborn ↔ s.phase q = .unborn
  reaper : inReaper (s'.pc a) = true → inReaper (s.pc a) = true ∨ e = .reap a
  deleted : ∀ q, s'.deleted q = true ↔ s.deleted q = true ∨ deletes s e = some q
  lists : deletes s e = none ∧ (s'.procList = s.procList ∨
      ∃ q, listing (s.pc a) = some q ∧ s'.procList = s.procList ++ [q]) ∨
    ∃ q i, s.pc a = .reapTest q i ∧ deletes s e = some q ∧ s'.procList = s.procList.eraseIdx i
  index : ∀ q i, reapIndex (s'.pc a) = some (q, i) →
    s'.procList = s.procList ∧ (reapIndex (s.pc a) = some (q, i) ∨ s.procList[i]? = some q)

section Keeps

variable {s s' : Procs π τ l} {a : τ} {q : π} {p : ProcPc π τ} {e : Procs.Event π τ l}

omit [DecidableEq π] [DecidableEq l] in
theorem keeps_move (ha : s.life a = .running) (hpc : s'.pc = Function.update s.pc a p)
    (howner : s'.owner = s.owner) (hcreated : s'.created = s.created)
    (hlife : s'.life = s.life) (hphase : s'.phase = s.phase)
    (hdel : s'.deleted = s.deleted) (hlist : s'.procList = s.procList) (hnot : deletes s e = none)
    (hr : inReaper p = true → inReaper (s.pc a) = true ∨ e = .reap a)
    (hi : ∀ q i, reapIndex p = some (q, i) →
      reapIndex (s.pc a) = some (q, i) ∨ s.procList[i]? = some q) : Keeps s s' a e where
  pc b hb := by rw [hpc, Function.update_of_ne hb]
  owner := howner
  created := hcreated
  unborn t := by rw [hlife]
  actor := by rw [hlife]; exact .inl ha
  phase q := by rw [hphase]
  reaper := by rw [hpc, Function.update_self]; exact hr
  deleted q := by rw [hdel, hnot]; simp
  lists := .inl ⟨hnot, .inl hlist⟩
  index q i := by rw [hpc, Function.update_self]; exact fun h => ⟨hlist, hi q i h⟩

omit [DecidableEq l] in
theorem keeps_phase {x : Phase} (ha : s.life a = .running) (hpc : s'.pc = Function.update s.pc a p)
    (howner : s'.owner = s.owner) (hcreated : s'.created = s.created)
    (hlife : s'.life = s.life)
    (hphase : s'.phase = Function.update s.phase q x) (hborn : s.phase q ≠ .unborn)
    (hx : x ≠ .unborn)
    (hdel : s'.deleted = s.deleted) (hlist : s'.procList = s.procList) (hnot : deletes s e = none)
    (hr : inReaper p = false) (hi : reapIndex p = none) : Keeps s s' a e where
  pc b hb := by rw [hpc, Function.update_of_ne hb]
  owner := howner
  created := hcreated
  unborn t := by rw [hlife]
  actor := by rw [hlife]; exact .inl ha
  phase r := by
    rw [hphase]
    rcases eq_or_ne r q with rfl | hne
    · simp [hborn, hx]
    · rw [Function.update_of_ne hne]
  reaper := by rw [hpc, Function.update_self, hr]; nofun
  deleted r := by rw [hdel, hnot]; simp
  lists := .inl ⟨hnot, .inl hlist⟩
  index r i := by rw [hpc, Function.update_self, hi]; nofun

omit [DecidableEq π] [DecidableEq l] in
theorem keeps_life {t : τ} {x : Life} (ha : s.life a = .running)
    (hpc : ∀ b, b ≠ a → s'.pc b = s.pc b)
    (howner : s'.owner = s.owner) (hcreated : s'.created = s.created)
    (hlife : s'.life = Function.update s.life t x)
    (hborn : s.life t ≠ .unborn) (hx : x ≠ .unborn) (hself : t = a → x = .killed)
    (hphase : ∀ q, s'.phase q = .unborn ↔ s.phase q = .unborn)
    (hdel : s'.deleted = s.deleted) (hlist : s'.procList = s.procList) (hnot : deletes s e = none)
    (hr : inReaper (s'.pc a) = true → inReaper (s.pc a) = true)
    (hi : ∀ q i, reapIndex (s'.pc a) = some (q, i) → reapIndex (s.pc a) = some (q, i)) :
    Keeps s s' a e where
  pc := hpc
  owner := howner
  created := hcreated
  unborn u := by
    rw [hlife]
    rcases eq_or_ne u t with rfl | hne
    · simp [hborn, hx]
    · rw [Function.update_of_ne hne]
  actor := by
    rw [hlife]
    rcases eq_or_ne a t with rfl | hne
    · exact .inr ((Function.update_self _ _ _).trans (hself rfl))
    · exact .inl ((Function.update_of_ne hne _ _).trans ha)
  phase := hphase
  reaper hp := .inl (hr hp)
  deleted q := by rw [hdel, hnot]; simp
  lists := .inl ⟨hnot, .inl hlist⟩
  index q i h := ⟨hlist, .inl (hi q i h)⟩

omit [DecidableEq l] in
theorem keeps_addLock {first : Bool} (ha : s.life a = .running) (hp : s.pc a = .addLock q first)
    (hs : s.exec a = some s') : Keeps s s' a (.exec a) := by
  simp only [Procs.exec, hp] at hs
  rw [Option.ite_none_right_eq_some, Option.map_eq_some_iff] at hs
  obtain ⟨-, s₁, hs₁, rfl⟩ := hs
  obtain ⟨-, rfl⟩ := lockTasks_eq_some.mp hs₁
  exact keeps_move ha rfl rfl rfl rfl rfl rfl rfl (by simp [deletes, hp]) (by simp [inReaper])
    (by simp [reapIndex])

omit [DecidableEq l] in
theorem keeps_addPush {first : Bool} (h : Procs.Inv s) (ha : s.life a = .running)
    (hp : s.pc a = .addPush q first t) (hs : s.exec a = some s') : Keeps s s' a (.exec a) := by
  simp only [Procs.exec, hp] at hs
  obtain ⟨s₁, hs₁, rfl⟩ := Option.map_eq_some_iff.mp hs
  obtain ⟨-, rfl⟩ := pushTask_eq_some.mp hs₁
  cases first with
  | true =>
    exact keeps_phase ha rfl rfl rfl rfl rfl (h.born (by rw [hp]; rfl)) (by simp) rfl rfl
      (by simp [deletes, hp]) rfl rfl
  | false =>
    exact keeps_move ha rfl rfl rfl rfl rfl rfl rfl (by simp [deletes, hp]) (by simp [inReaper])
      (by simp [reapIndex])

omit [DecidableEq l] in
theorem keeps_addInsert {first : Bool} (h : Procs.Inv s) (ha : s.life a = .running)
    (hp : s.pc a = .addInsert q first t) (hs : s.exec a = some s') : Keeps s s' a (.exec a) := by
  simp only [Procs.exec, hp, Option.some.injEq] at hs
  subst hs
  have ht := h.fresh a t (by rw [hp]; rfl)
  exact keeps_life ha (fun b hb => Function.update_of_ne hb _ _) rfl rfl rfl
    (by simp [ht]) (by simp)
    (by rintro rfl; simp [ha] at ht) (fun _ => Iff.rfl) rfl rfl (by simp [deletes, hp])
    (by simp [inReaper]) (by simp [reapIndex])

omit [DecidableEq l] in
theorem keeps_addUnlock {first : Bool} (ha : s.life a = .running) (hp : s.pc a = .addUnlock q first)
    (hs : s.exec a = some s') : Keeps s s' a (.exec a) := by
  simp only [Procs.exec, hp] at hs
  obtain ⟨s₁, hs₁, rfl⟩ := Option.map_eq_some_iff.mp hs
  obtain ⟨-, rfl⟩ := unlockTasks_eq_some.mp hs₁
  cases first
  all_goals
    exact keeps_move ha rfl rfl rfl rfl rfl rfl rfl (by simp [deletes, hp]) (by simp [inReaper])
      (by simp [reapIndex])

omit [DecidableEq l] in
theorem keeps_listLock {forked : Bool} (ha : s.life a = .running) (hp : s.pc a = .listLock q forked)
    (hs : s.exec a = some s') : Keeps s s' a (.exec a) := by
  simp only [Procs.exec, hp] at hs
  rw [Option.ite_none_left_eq_some, Option.some.injEq] at hs
  obtain ⟨-, rfl⟩ := hs
  exact keeps_move ha rfl rfl rfl rfl rfl rfl rfl (by simp [deletes, hp]) (by simp [inReaper])
    (by simp [reapIndex])

omit [DecidableEq l] in
theorem keeps_listPush {forked : Bool} (ha : s.life a = .running) (hp : s.pc a = .listPush q forked)
    (hs : s.exec a = some s') : Keeps s s' a (.exec a) := by
  simp only [Procs.exec, hp, Option.some.injEq] at hs
  subst hs
  refine ⟨fun b hb => Function.update_of_ne hb _ _, rfl, rfl, fun _ => Iff.rfl, .inl ha,
    fun _ => Iff.rfl, by simp [inReaper], fun r => by simp [deletes, hp],
    .inl ⟨by simp [deletes, hp], .inr ⟨q, by simp [hp], rfl⟩⟩, by simp [reapIndex]⟩

omit [DecidableEq l] in
theorem keeps_listUnlock {forked : Bool} (h : Procs.Inv s) (ha : s.life a = .running)
    (hp : s.pc a = .listUnlock q forked) (hs : s.exec a = some s') : Keeps s s' a (.exec a) := by
  simp only [Procs.exec, hp, Option.some.injEq] at hs
  subst hs
  cases forked with
  | true =>
    exact keeps_move ha rfl rfl rfl rfl rfl rfl rfl (by simp [deletes, hp]) (by simp [inReaper])
      (by simp [reapIndex])
  | false =>
    exact keeps_phase ha rfl rfl rfl rfl rfl (h.born (by rw [hp]; rfl)) (by simp) rfl rfl
      (by simp [deletes, hp]) rfl rfl

omit [DecidableEq l] in
theorem keeps_forkPush (h : Procs.Inv s) (ha : s.life a = .running) (hp : s.pc a = .forkPush q t)
    (hs : s.exec a = some s') : Keeps s s' a (.exec a) := by
  simp only [Procs.exec, hp] at hs
  obtain ⟨s₁, hs₁, rfl⟩ := Option.map_eq_some_iff.mp hs
  obtain ⟨-, rfl⟩ := pushTask_eq_some.mp hs₁
  exact keeps_phase ha rfl rfl rfl rfl rfl (h.born (by rw [hp]; rfl)) (by simp) rfl rfl
    (by simp [deletes, hp]) rfl rfl

omit [DecidableEq l] in
theorem keeps_forkInsert (h : Procs.Inv s) (ha : s.life a = .running)
    (hp : s.pc a = .forkInsert q t) (hs : s.exec a = some s') : Keeps s s' a (.exec a) := by
  simp only [Procs.exec, hp, Option.some.injEq] at hs
  subst hs
  have ht := h.fresh a t (by rw [hp]; rfl)
  refine keeps_life ha (fun b hb => Function.update_of_ne hb _ _) rfl rfl rfl
    (by simp [ht]) (by simp)
    (by rintro rfl; simp [ha] at ht) ?_ rfl rfl (by simp [deletes, hp]) (by simp [inReaper])
    (by simp [reapIndex])
  intro r
  rcases eq_or_ne r q with rfl | hne
  · simp [h.born (x := .populated) (by rw [hp]; rfl)]
  · simp [Function.update_of_ne hne]

omit [DecidableEq l] in
theorem keeps_exitLock (ha : s.life a = .running) (hp : s.pc a = .exitLock q)
    (hs : s.exec a = some s') : Keeps s s' a (.exec a) := by
  simp only [Procs.exec, hp] at hs
  obtain ⟨s₁, hs₁, rfl⟩ := Option.map_eq_some_iff.mp hs
  obtain ⟨-, rfl⟩ := lockTasks_eq_some.mp hs₁
  exact keeps_move ha rfl rfl rfl rfl rfl rfl rfl (by simp [deletes, hp]) (by simp [inReaper])
    (by simp [reapIndex])

omit [DecidableEq l] in
theorem keeps_exitTest (ha : s.life a = .running) (hp : s.pc a = .exitTest q)
    (hs : s.exec a = some s') : Keeps s s' a (.exec a) := by
  simp only [Procs.exec, hp, Option.some.injEq] at hs
  subst hs
  split_ifs
  all_goals
    exact keeps_move ha rfl rfl rfl rfl rfl rfl rfl (by simp [deletes, hp]) (by simp [inReaper])
      (by simp [reapIndex])

omit [DecidableEq l] in
theorem keeps_exitKill {i : ℕ} (ha : s.life a = .running) (hp : s.pc a = .exitKill q i)
    (hs : s.exec a = some s') : Keeps s s' a (.exec a) := by
  simp only [Procs.exec, hp] at hs
  split at hs
  · rw [Option.some.injEq] at hs
    subst hs
    exact keeps_move ha rfl rfl rfl rfl rfl rfl rfl (by simp [deletes, hp]) (by simp [inReaper])
      (by simp [reapIndex])
  · rw [Option.some.injEq] at hs
    subst hs
    split_ifs
    all_goals
      exact keeps_move ha rfl rfl rfl rfl rfl rfl rfl (by simp [deletes, hp]) (by simp [inReaper])
        (by simp [reapIndex])

omit [DecidableEq l] in
theorem keeps_exitUnlock (ha : s.life a = .running) (hp : s.pc a = .exitUnlock q)
    (hs : s.exec a = some s') : Keeps s s' a (.exec a) := by
  simp only [Procs.exec, hp] at hs
  obtain ⟨s₁, hs₁, rfl⟩ := Option.map_eq_some_iff.mp hs
  obtain ⟨-, rfl⟩ := unlockTasks_eq_some.mp hs₁
  split_ifs
  all_goals
    exact keeps_move ha rfl rfl rfl rfl rfl rfl rfl (by simp [deletes, hp]) (by simp [inReaper])
      (by simp [reapIndex])

omit [DecidableEq l] in
theorem keeps_exitSelf (ha : s.life a = .running) (hp : s.pc a = .exitSelf)
    (hs : s.exec a = some s') : Keeps s s' a (.exec a) := by
  simp only [Procs.exec, hp, Option.some.injEq] at hs
  subst hs
  exact keeps_life ha (fun _ _ => rfl) rfl rfl rfl (by simp [ha]) (by simp) (fun _ => rfl)
    (fun _ => Iff.rfl) rfl rfl (by simp [deletes, hp]) id (fun _ _ => id)

omit [DecidableEq l] in
theorem keeps_reapLock (ha : s.life a = .running) (hp : s.pc a = .reapLock)
    (hs : s.exec a = some s') : Keeps s s' a (.exec a) := by
  simp only [Procs.exec, hp] at hs
  rw [Option.ite_none_left_eq_some, Option.some.injEq] at hs
  obtain ⟨-, rfl⟩ := hs
  exact keeps_move ha rfl rfl rfl rfl rfl rfl rfl (by simp [deletes, hp]) (by simp [hp, inReaper])
    (by simp [hp, reapIndex])

omit [DecidableEq l] in
theorem keeps_reapProc {i : ℕ} (ha : s.life a = .running) (hp : s.pc a = .reapProc i)
    (hs : s.exec a = some s') : Keeps s s' a (.exec a) := by
  simp only [Procs.exec, hp] at hs
  split at hs
  · rw [Option.some.injEq] at hs
    subst hs
    exact keeps_move ha rfl rfl rfl rfl rfl rfl rfl (by simp [deletes, hp]) (by simp [hp, inReaper])
      (by simp [hp, reapIndex])
  case h_2 q hq =>
    obtain ⟨s₁, hs₁, rfl⟩ := Option.map_eq_some_iff.mp hs
    obtain ⟨-, rfl⟩ := lockTasks_eq_some.mp hs₁
    exact keeps_move ha rfl rfl rfl rfl rfl rfl rfl (by simp [deletes, hp]) (by simp [hp, inReaper])
      (by simp [hp, reapIndex, hq])

omit [DecidableEq l] in
theorem keeps_reapTasks {i j : ℕ} (ha : s.life a = .running) (hp : s.pc a = .reapTasks q i j)
    (hs : s.exec a = some s') : Keeps s s' a (.exec a) := by
  simp only [Procs.exec, hp] at hs
  split at hs
  · rw [Option.some.injEq] at hs
    subst hs
    exact keeps_move ha rfl rfl rfl rfl rfl rfl rfl (by simp [deletes, hp]) (by simp [hp, inReaper])
      (by simp [hp, reapIndex])
  case h_2 t ht =>
    split_ifs at hs with hk
    · rw [Option.some.injEq] at hs
      subst hs
      exact keeps_life ha (fun b hb => Function.update_of_ne hb _ _) rfl rfl rfl (by simp [hk])
        (by simp) (by rintro rfl; simp [ha] at hk) (fun _ => Iff.rfl) rfl rfl
        (by simp [deletes, hp])
        (by simp [hp, inReaper]) (by
          cases afterRemove ((s.proc q).taskList.eraseIdx j) j <;> simp [hp, reapIndex])
    · rw [Option.some.injEq] at hs
      subst hs
      exact keeps_move ha rfl rfl rfl rfl rfl rfl rfl (by simp [deletes, hp])
        (by simp [hp, inReaper])
        (by simp [hp, reapIndex])

omit [DecidableEq l] in
theorem keeps_reapSize {i : ℕ} (ha : s.life a = .running) (hp : s.pc a = .reapSize q i)
    (hs : s.exec a = some s') : Keeps s s' a (.exec a) := by
  simp only [Procs.exec, hp, Option.some.injEq] at hs
  subst hs
  split_ifs
  all_goals
    exact keeps_move ha rfl rfl rfl rfl rfl rfl rfl (by simp [deletes, hp]) (by simp [hp, inReaper])
      (by simp [hp, reapIndex])

omit [DecidableEq l] in
theorem keeps_reapUnlock {i : ℕ} (ha : s.life a = .running) (hp : s.pc a = .reapUnlock q i)
    (hs : s.exec a = some s') : Keeps s s' a (.exec a) := by
  simp only [Procs.exec, hp] at hs
  obtain ⟨s₁, hs₁, rfl⟩ := Option.map_eq_some_iff.mp hs
  obtain ⟨-, rfl⟩ := unlockTasks_eq_some.mp hs₁
  exact keeps_move ha rfl rfl rfl rfl rfl rfl rfl (by simp [deletes, hp]) (by simp [hp, inReaper])
    (by simp [hp, reapIndex])

omit [DecidableEq l] in
theorem keeps_reapTest {i : ℕ} (ha : s.life a = .running) (hp : s.pc a = .reapTest q i)
    (hs : s.exec a = some s') : Keeps s s' a (.exec a) := by
  simp only [Procs.exec, hp] at hs
  split_ifs at hs with hq
  · rw [Option.some.injEq] at hs
    subst hs
    refine ⟨fun b hb => Function.update_of_ne hb _ _, rfl, rfl, fun _ => Iff.rfl, .inl ha,
      fun _ => Iff.rfl, fun _ => .inl (by simp [hp, inReaper]), fun r => ?_,
      .inr ⟨q, i, hp, by simp [deletes, hp, hq], rfl⟩, fun r k hr => ?_⟩
    · rcases eq_or_ne r q with rfl | hne
      · simp [deletes, hp, hq]
      · simp [deletes, hp, hq, Function.update_of_ne hne, hne.symm]
    · cases h' : afterRemove (s.procList.eraseIdx i) i <;> simp [reapIndex, h'] at hr
  · rw [Option.some.injEq] at hs
    subst hs
    exact keeps_move ha rfl rfl rfl rfl rfl rfl rfl (by simp [deletes, hp, hq])
      (by simp [hp, inReaper]) (by simp [hp, reapIndex])

omit [DecidableEq l] in
theorem keeps_reapDone (ha : s.life a = .running) (hp : s.pc a = .reapDone)
    (hs : s.exec a = some s') : Keeps s s' a (.exec a) := by
  simp only [Procs.exec, hp, Option.some.injEq] at hs
  subst hs
  exact keeps_move ha rfl rfl rfl rfl rfl rfl rfl (by simp [deletes, hp]) (by simp [inReaper])
    (by simp [reapIndex])

omit [DecidableEq l] in
theorem keeps_exec (h : Procs.Inv s) (ha : s.life a = .running) (hs : s.exec a = some s') :
    Keeps s s' a (.exec a) := by
  cases hp : s.pc a with
  | user | kernel | addTask | forkTask => simp [Procs.exec, hp] at hs
  | addLock => exact keeps_addLock ha hp hs
  | addPush => exact keeps_addPush h ha hp hs
  | addInsert => exact keeps_addInsert h ha hp hs
  | addUnlock => exact keeps_addUnlock ha hp hs
  | listLock => exact keeps_listLock ha hp hs
  | listPush => exact keeps_listPush ha hp hs
  | listUnlock => exact keeps_listUnlock h ha hp hs
  | forkPush => exact keeps_forkPush h ha hp hs
  | forkInsert => exact keeps_forkInsert h ha hp hs
  | exitLock => exact keeps_exitLock ha hp hs
  | exitTest => exact keeps_exitTest ha hp hs
  | exitKill => exact keeps_exitKill ha hp hs
  | exitUnlock => exact keeps_exitUnlock ha hp hs
  | exitSelf => exact keeps_exitSelf ha hp hs
  | reapLock => exact keeps_reapLock ha hp hs
  | reapProc => exact keeps_reapProc ha hp hs
  | reapTasks => exact keeps_reapTasks ha hp hs
  | reapSize => exact keeps_reapSize ha hp hs
  | reapUnlock => exact keeps_reapUnlock ha hp hs
  | reapTest => exact keeps_reapTest ha hp hs
  | reapDone => exact keeps_reapDone ha hp hs

omit [DecidableEq π] [DecidableEq l] in
theorem keeps_kill (ha : s.life a = .running) (hnot : deletes s e = none) :
    Keeps s (s.setLife a .killed) a e :=
  keeps_life ha (fun _ _ => rfl) rfl rfl rfl (by simp [ha]) (by simp) (fun _ => rfl)
    (fun _ => Iff.rfl) rfl
    rfl hnot id (fun _ _ => id)

omit [DecidableEq α] in
theorem keeps_step {w : Switch π τ l α φ κ} (h : Procs.Inv s) (hplain : w.Plain e)
    (hs : s.step e = some s') : Keeps s s' e.actor e := by
  cases e with
  | newProcess a q => exact hplain.elim
  | fork a q => exact hplain.elim
  | create a t => exact hplain.elim
  | exec a =>
    simp only [Procs.step, Procs.act, Option.ite_none_right_eq_some] at hs
    exact keeps_exec h hs.1.1 hs.2
  | die a =>
    simp only [Procs.step, Option.ite_none_right_eq_some, Option.some.injEq] at hs
    obtain ⟨⟨ha, -⟩, rfl⟩ := hs
    exact keeps_kill ha rfl
  | threadExit a =>
    simp only [Procs.step, Procs.act, Option.ite_none_right_eq_some, Option.some.injEq] at hs
    obtain ⟨ha, -, rfl⟩ := hs
    exact keeps_kill ha.1 rfl
  | addTask a =>
    simp only [Procs.step, Procs.act, Option.ite_none_right_eq_some, Option.map_eq_some_iff] at hs
    obtain ⟨ha, -, q, -, rfl⟩ := hs
    exact keeps_move ha.1 rfl rfl rfl rfl rfl rfl rfl rfl (by simp [inReaper]) (by simp [reapIndex])
  | enter a | leave a | exit a q =>
    simp only [Procs.step, Procs.act, Option.ite_none_right_eq_some, Option.some.injEq] at hs
    obtain ⟨ha, -, rfl⟩ := hs
    exact keeps_move ha.1 rfl rfl rfl rfl rfl rfl rfl rfl (by simp [inReaper]) (by simp [reapIndex])
  | reap a =>
    simp only [Procs.step, Procs.act, Option.ite_none_right_eq_some, Option.some.injEq] at hs
    obtain ⟨ha, -, rfl⟩ := hs
    exact keeps_move ha.1 rfl rfl rfl rfl rfl rfl rfl rfl (fun _ => .inr rfl) (by simp [reapIndex])
  | acquire a x | release a x =>
    simp only [Procs.step, Procs.act, Option.ite_none_right_eq_some, Option.some.injEq] at hs
    obtain ⟨ha, -, rfl⟩ := hs
    exact ⟨fun _ _ => rfl, rfl, rfl, fun _ => Iff.rfl, .inl ha.1, fun _ => Iff.rfl, .inl,
      fun _ => by
      simp [deletes], .inl ⟨rfl, .inl rfl⟩, fun _ _ h => ⟨rfl, .inl h⟩⟩

end Keeps

end Switch

end Koerix
