import Koerix.Proc.Reaper

/-! # Locks of killed tasks

`UserProcess::exit` redirects the other tasks of the process wherever they are,
and a task that dies there keeps its locks for ever.
-/

namespace Koerix

namespace Procs

variable {π τ l : Type*} {s s' : Procs π τ l} {a t : τ} {q : π}
  {p : ProcPc π τ}

/-- The task has a lock of the kernel. -/
def Holds (s : Procs π τ l) (t : τ) : Prop :=
  s.held t ≠ [] ∨ OwnsList (s.pc t) ∨ (tasksLock (s.pc t)).isSome

instance : DecidablePred (OwnsList (π := π) (τ := τ)) := fun p =>
  match p with
  | .listPush _ _ | .listUnlock _ _ | .reapProc _ | .reapTasks _ _ _ | .reapSize _ _ =>
    isTrue trivial
  | .reapUnlock _ _ | .reapTest _ _ | .reapDone => isTrue trivial
  | .user | .kernel | .addLock _ _ | .addTask _ _ | .addPush _ _ _ | .addInsert _ _ _ => isFalse id
  | .addUnlock _ _ | .listLock _ _ | .forkTask _ | .forkPush _ _ | .forkInsert _ _ => isFalse id
  | .exitLock _ | .exitTest _ | .exitKill _ _ | .exitUnlock _ | .exitSelf | .reapLock => isFalse id

instance [DecidableEq l] (s : Procs π τ l) (t : τ) : Decidable (s.Holds t) :=
  inferInstanceAs (Decidable (_ ≠ [] ∨ _ ∨ _))

/-- No task that may still die, or is dead, has a lock. -/
structure Unheld (s : Procs π τ l) : Prop where
  doomed : ∀ t, s.doomed t = true → ¬ s.Holds t
  killed : ∀ t, s.life t = .killed → ¬ s.Holds t
  quiet : ∀ t, mayLock (s.pc t) = false → s.held t = []

variable [DecidableEq π] [DecidableEq τ]

/-- The task that the next step redirects to `EXIT_ADDR`. -/
def victim (s : Procs π τ l) (a : τ) : Option τ :=
  match s.pc a with
  | .exitKill q i => ((s.proc q).taskList[i]?).filter (· ≠ a)
  | _ => none

/-- What a step does to the locks and the lives. -/
structure LockEffect (s s' : Procs π τ l) (a : τ) : Prop where
  held : s'.held = s.held
  old : ∀ b, b ≠ a → s'.pc b = s.pc b
  quiet : mayLock (s'.pc a) = false → mayLock (s.pc a) = false
  killed : ∀ t, s'.life t = .killed → s.life t = .killed ∨ t = a ∧ s'.pc a = .exitSelf
  doomed : ∀ t, s'.doomed t = true → s.doomed t = true ∨ t ∈ s.victim a ∧ t ≠ a

omit [DecidableEq π] in
theorem LockEffect.move (hheld : s'.held = s.held) (hpc : s'.pc = Function.update s.pc a p)
    (hquiet : mayLock p = false → mayLock (s.pc a) = false)
    (hlife : ∀ t, s'.life t = .killed → s.life t = .killed) (hdoomed : s'.doomed = s.doomed) :
    LockEffect s s' a where
  held := hheld
  old := fun b hb => by rw [hpc, Function.update_of_ne hb]
  quiet := by simpa only [hpc, Function.update_self] using hquiet
  killed := fun t ht => .inl (hlife t ht)
  doomed := fun t ht => .inl (hdoomed ▸ ht)

omit [DecidableEq π] in
theorem killed_of_update {x : Life} (hx : x ≠ .killed) (u : τ)
    (hu : Function.update s.life t x u = .killed) : s.life u = .killed := by
  rcases eq_or_ne u t with rfl | hne
  · rw [Function.update_self] at hu
    exact absurd hu hx
  · rwa [Function.update_of_ne hne] at hu

theorem lockEffect_addLock {first : Bool} (hp : s.pc a = .addLock q first) (hs : s.exec a = some s')
    : LockEffect s s' a := by
  simp only [exec, hp] at hs
  rw [Option.ite_none_right_eq_some, Option.map_eq_some_iff] at hs
  obtain ⟨-, s₁, hs₁, rfl⟩ := hs
  obtain ⟨-, rfl⟩ := lockTasks_eq_some.mp hs₁
  exact .move rfl rfl (by simp [mayLock]) (fun _ => id) rfl

theorem lockEffect_addPush {first : Bool} (hp : s.pc a = .addPush q first t)
    (hs : s.exec a = some s') : LockEffect s s' a := by
  simp only [exec, hp] at hs
  obtain ⟨s₁, hs₁, rfl⟩ := Option.map_eq_some_iff.mp hs
  obtain ⟨-, rfl⟩ := pushTask_eq_some.mp hs₁
  cases first <;> exact .move rfl rfl (by simp [mayLock]) (fun _ => id) rfl

theorem lockEffect_addInsert {first : Bool} (hp : s.pc a = .addInsert q first t)
    (hs : s.exec a = some s') : LockEffect s s' a := by
  simp only [exec, hp, Option.some.injEq] at hs
  subst hs
  exact .move rfl rfl (by simp [mayLock]) (killed_of_update (by simp)) rfl

theorem lockEffect_addUnlock {first : Bool} (hp : s.pc a = .addUnlock q first)
    (hs : s.exec a = some s') : LockEffect s s' a := by
  simp only [exec, hp] at hs
  obtain ⟨s₁, hs₁, rfl⟩ := Option.map_eq_some_iff.mp hs
  obtain ⟨-, rfl⟩ := unlockTasks_eq_some.mp hs₁
  cases first <;> exact .move rfl rfl (by simp [mayLock]) (fun _ => id) rfl

theorem lockEffect_listLock {forked : Bool} (hp : s.pc a = .listLock q forked)
    (hs : s.exec a = some s') : LockEffect s s' a := by
  simp only [exec, hp] at hs
  rw [Option.ite_none_left_eq_some, Option.some.injEq] at hs
  obtain ⟨-, rfl⟩ := hs
  exact .move rfl rfl (by simp [mayLock]) (fun _ => id) rfl

theorem lockEffect_listPush {forked : Bool} (hp : s.pc a = .listPush q forked)
    (hs : s.exec a = some s') : LockEffect s s' a := by
  simp only [exec, hp, Option.some.injEq] at hs
  subst hs
  exact .move rfl rfl (by simp [mayLock]) (fun _ => id) rfl

theorem lockEffect_listUnlock {forked : Bool} (hp : s.pc a = .listUnlock q forked)
    (hs : s.exec a = some s') : LockEffect s s' a := by
  simp only [exec, hp, Option.some.injEq] at hs
  subst hs
  cases forked <;> exact .move rfl rfl (by simp [mayLock]) (fun _ => id) rfl

theorem lockEffect_forkPush (hp : s.pc a = .forkPush q t) (hs : s.exec a = some s') : LockEffect s
    s' a := by
  simp only [exec, hp] at hs
  obtain ⟨s₁, hs₁, rfl⟩ := Option.map_eq_some_iff.mp hs
  obtain ⟨-, rfl⟩ := pushTask_eq_some.mp hs₁
  exact .move rfl rfl (by simp [mayLock]) (fun _ => id) rfl

theorem lockEffect_forkInsert (hp : s.pc a = .forkInsert q t) (hs : s.exec a = some s') : LockEffect
    s s' a := by
  simp only [exec, hp, Option.some.injEq] at hs
  subst hs
  exact .move rfl rfl (by simp [mayLock]) (killed_of_update (by simp)) rfl

theorem lockEffect_exitLock (hp : s.pc a = .exitLock q) (hs : s.exec a = some s') : LockEffect s s'
    a := by
  simp only [exec, hp] at hs
  obtain ⟨s₁, hs₁, rfl⟩ := Option.map_eq_some_iff.mp hs
  obtain ⟨-, rfl⟩ := lockTasks_eq_some.mp hs₁
  exact .move rfl rfl (by simp [hp, mayLock]) (fun _ => id) rfl

theorem lockEffect_exitTest (hp : s.pc a = .exitTest q) (hs : s.exec a = some s') : LockEffect s s'
    a := by
  simp only [exec, hp, Option.some.injEq] at hs
  subst hs
  split_ifs <;> exact .move rfl rfl (by simp [hp, mayLock]) (fun _ => id) rfl

theorem lockEffect_exitKill {i : ℕ} (hp : s.pc a = .exitKill q i) (hs : s.exec a = some s') :
    LockEffect s s' a := by
  simp only [exec, hp] at hs
  split at hs
  · rw [Option.some.injEq] at hs
    subst hs
    exact .move rfl rfl (by simp [hp, mayLock]) (fun _ => id) rfl
  case h_2 t ht =>
    rw [Option.some.injEq] at hs
    subst hs
    split_ifs with hta
    · exact .move rfl rfl (by simp [hp, mayLock]) (fun _ => id) rfl
    · constructor
      case held => rfl
      case old => exact fun b hb => Function.update_of_ne hb _ _
      case quiet => simp [hp, mayLock]
      case killed => exact fun u hu => .inl hu
      case doomed =>
        intro u hu
        rcases eq_or_ne u t with rfl | hne
        · exact .inr ⟨by simp [victim, hp, ht, hta], hta⟩
        · exact .inl (by simpa [hne] using hu)

theorem lockEffect_exitUnlock (hp : s.pc a = .exitUnlock q) (hs : s.exec a = some s') : LockEffect s
    s' a := by
  simp only [exec, hp] at hs
  obtain ⟨s₁, hs₁, rfl⟩ := Option.map_eq_some_iff.mp hs
  obtain ⟨-, rfl⟩ := unlockTasks_eq_some.mp hs₁
  split_ifs <;> exact .move rfl rfl (by simp [hp, mayLock]) (fun _ => id) rfl

theorem lockEffect_exitSelf (hp : s.pc a = .exitSelf) (hs : s.exec a = some s') : LockEffect s s' a
    := by
  simp only [exec, hp, Option.some.injEq] at hs
  subst hs
  constructor
  case held => rfl
  case old => exact fun b _ => rfl
  case quiet => exact id
  case killed =>
    intro t ht
    rcases eq_or_ne t a with rfl | hne
    · exact .inr ⟨rfl, hp⟩
    · exact .inl (by simpa [hne] using ht)
  case doomed => exact fun t ht => .inl ht

theorem lockEffect_reapLock (hp : s.pc a = .reapLock) (hs : s.exec a = some s') : LockEffect s s' a
    := by
  simp only [exec, hp] at hs
  rw [Option.ite_none_left_eq_some, Option.some.injEq] at hs
  obtain ⟨-, rfl⟩ := hs
  exact .move rfl rfl (by simp [mayLock]) (fun _ => id) rfl

theorem lockEffect_reapProc {i : ℕ} (hp : s.pc a = .reapProc i) (hs : s.exec a = some s') :
    LockEffect s s' a := by
  simp only [exec, hp] at hs
  split at hs
  · rw [Option.some.injEq] at hs
    subst hs
    exact .move rfl rfl (by simp [mayLock]) (fun _ => id) rfl
  · obtain ⟨s₁, hs₁, rfl⟩ := Option.map_eq_some_iff.mp hs
    obtain ⟨-, rfl⟩ := lockTasks_eq_some.mp hs₁
    exact .move rfl rfl (by simp [mayLock]) (fun _ => id) rfl

theorem lockEffect_reapTasks {i j : ℕ} (hp : s.pc a = .reapTasks q i j) (hs : s.exec a = some s') :
    LockEffect s s' a := by
  simp only [exec, hp] at hs
  split at hs
  · rw [Option.some.injEq] at hs
    subst hs
    exact .move rfl rfl (by simp [mayLock]) (fun _ => id) rfl
  case h_2 t ht =>
    split_ifs at hs with hk
    · rw [Option.some.injEq] at hs
      subst hs
      cases afterRemove ((s.proc q).taskList.eraseIdx j) j
      all_goals exact .move rfl rfl (by simp [mayLock]) (killed_of_update (by simp)) rfl
    · rw [Option.some.injEq] at hs
      subst hs
      exact .move rfl rfl (by simp [mayLock]) (fun _ => id) rfl

theorem lockEffect_reapSize {i : ℕ} (hp : s.pc a = .reapSize q i) (hs : s.exec a = some s') :
    LockEffect s s' a := by
  simp only [exec, hp, Option.some.injEq] at hs
  subst hs
  split_ifs <;> exact .move rfl rfl (by simp [mayLock]) (fun _ => id) rfl

theorem lockEffect_reapUnlock {i : ℕ} (hp : s.pc a = .reapUnlock q i) (hs : s.exec a = some s') :
    LockEffect s s' a := by
  simp only [exec, hp] at hs
  obtain ⟨s₁, hs₁, rfl⟩ := Option.map_eq_some_iff.mp hs
  obtain ⟨-, rfl⟩ := unlockTasks_eq_some.mp hs₁
  exact .move rfl rfl (by simp [mayLock]) (fun _ => id) rfl

theorem lockEffect_reapTest {i : ℕ} (hp : s.pc a = .reapTest q i) (hs : s.exec a = some s') :
    LockEffect s s' a := by
  simp only [exec, hp] at hs
  split_ifs at hs
  · rw [Option.some.injEq] at hs
    subst hs
    cases afterRemove (s.procList.eraseIdx i) i
    all_goals exact .move rfl rfl (by simp [mayLock]) (fun _ => id) rfl
  · rw [Option.some.injEq] at hs
    subst hs
    exact .move rfl rfl (by simp [mayLock]) (fun _ => id) rfl

theorem lockEffect_reapDone (hp : s.pc a = .reapDone) (hs : s.exec a = some s') : LockEffect s s' a
    := by
  simp only [exec, hp, Option.some.injEq] at hs
  subst hs
  exact .move rfl rfl (by simp [mayLock]) (fun _ => id) rfl

theorem exec_lockEffect (hs : s.exec a = some s') : LockEffect s s' a := by
  cases hp : s.pc a with
  | user | kernel | addTask | forkTask => simp [exec, hp] at hs
  | addLock => exact lockEffect_addLock hp hs
  | addPush => exact lockEffect_addPush hp hs
  | addInsert => exact lockEffect_addInsert hp hs
  | addUnlock => exact lockEffect_addUnlock hp hs
  | listLock => exact lockEffect_listLock hp hs
  | listPush => exact lockEffect_listPush hp hs
  | listUnlock => exact lockEffect_listUnlock hp hs
  | forkPush => exact lockEffect_forkPush hp hs
  | forkInsert => exact lockEffect_forkInsert hp hs
  | exitLock => exact lockEffect_exitLock hp hs
  | exitTest => exact lockEffect_exitTest hp hs
  | exitKill => exact lockEffect_exitKill hp hs
  | exitUnlock => exact lockEffect_exitUnlock hp hs
  | exitSelf => exact lockEffect_exitSelf hp hs
  | reapLock => exact lockEffect_reapLock hp hs
  | reapProc => exact lockEffect_reapProc hp hs
  | reapTasks => exact lockEffect_reapTasks hp hs
  | reapSize => exact lockEffect_reapSize hp hs
  | reapUnlock => exact lockEffect_reapUnlock hp hs
  | reapTest => exact lockEffect_reapTest hp hs
  | reapDone => exact lockEffect_reapDone hp hs

variable [DecidableEq l]

/-- The caller of `UserProcess::exit` and the tasks that it redirects have no lock. -/
def Unburdened (s : Procs π τ l) : Event π τ l → Prop
  | .exec a => ∀ t ∈ s.victim a, ¬ s.Holds t
  | .exit a _ => s.held a = []
  | _ => True

instance (s : Procs π τ l) : DecidablePred s.Unburdened
  | .exec a => inferInstanceAs (Decidable (∀ t ∈ s.victim a, ¬ s.Holds t))
  | .exit a _ => inferInstanceAs (Decidable (s.held a = []))
  | .enter _ | .leave _ | .acquire _ _ | .release _ _ | .newProcess _ _ | .fork _ _ =>
    isTrue trivial
  | .addTask _ | .reap _ | .create _ _ | .threadExit _ | .die _ => isTrue trivial

namespace Unheld

omit [DecidableEq π] [DecidableEq l] in
theorem init (tasks : List τ) : Unheld (init tasks : Procs π τ l) := by
  constructor
  case doomed => simp [Procs.init]
  case killed =>
    intro t ht
    simp only [Procs.init] at ht
    split_ifs at ht
  case quiet => simp [Procs.init]

omit [DecidableEq π] [DecidableEq τ] [DecidableEq l] in
theorem holds_congr (hheld : s'.held t = s.held t) (hpc : s'.pc t = s.pc t) :
    s'.Holds t ↔ s.Holds t := by
  rw [Holds, hheld, hpc, Holds]

omit [DecidableEq π] [DecidableEq l] in
theorem of_lockEffect (h : Unheld s) (ha : s.Alive a) (he : LockEffect s s' a)
    (hok : ∀ t ∈ s.victim a, ¬ s.Holds t) : Unheld s' := by
  have hsame : ∀ t, t ≠ a → (s'.Holds t ↔ s.Holds t) :=
    fun t ht => holds_congr (by rw [he.held]) (he.old t ht)
  have hquiet : ∀ t, mayLock (s'.pc t) = false → s'.held t = [] := by
    intro t ht
    rw [he.held]
    rcases eq_or_ne t a with rfl | hne
    · exact h.quiet t (he.quiet ht)
    · exact h.quiet t (he.old t hne ▸ ht)
  constructor
  case doomed =>
    intro t ht
    rcases he.doomed t ht with hd | ⟨hv, hne⟩
    · have hne : t ≠ a := by
        rintro rfl
        rw [ha.2] at hd
        cases hd
      rw [hsame t hne]
      exact h.doomed t hd
    · rw [hsame t hne]
      exact hok t hv
  case killed =>
    intro t ht
    rcases he.killed t ht with hk | ⟨rfl, hp⟩
    · have hne : t ≠ a := by
        rintro rfl
        rw [ha.1] at hk
        cases hk
      rw [hsame t hne]
      exact h.killed t hk
    · have hheld := hquiet t (by simp [hp, mayLock])
      simp [Holds, hheld, hp]
  case quiet => exact hquiet

omit [DecidableEq π] [DecidableEq l] in
theorem goto (h : Unheld s) (ha : s.Alive a) (hheld : s.held a = []) : Unheld (s.goto a p) := by
  have hsame : ∀ t, t ≠ a → ((s.goto a p).Holds t ↔ s.Holds t) :=
    fun t ht => holds_congr rfl (by simp [ht])
  constructor
  case doomed =>
    intro t ht
    have hne : t ≠ a := by
      rintro rfl
      cases ha.2.symm.trans ht
    rw [hsame t hne]
    exact h.doomed t ht
  case killed =>
    intro t ht
    have hne : t ≠ a := by
      rintro rfl
      cases ha.1.symm.trans ht
    rw [hsame t hne]
    exact h.killed t ht
  case quiet =>
    intro t ht
    rcases eq_or_ne t a with rfl | hne
    · exact hheld
    · exact h.quiet t (by simpa [hne] using ht)

omit [DecidableEq π] [DecidableEq l] in
theorem setHeld {owner : l → Option τ} {locks : List l} (h : Unheld s) (ha : s.Alive a)
    (hmay : mayLock (s.pc a) = true) :
    Unheld { s with lockOwner := owner, held := Function.update s.held a locks } := by
  have hsame : ∀ t, t ≠ a →
      (Holds { s with lockOwner := owner, held := Function.update s.held a locks } t ↔ s.Holds t) :=
    fun t ht => holds_congr (Function.update_of_ne ht _ _) rfl
  constructor
  case doomed =>
    intro t ht
    have hne : t ≠ a := by
      rintro rfl
      cases ha.2.symm.trans ht
    rw [hsame t hne]
    exact h.doomed t ht
  case killed =>
    intro t ht
    have hne : t ≠ a := by
      rintro rfl
      cases ha.1.symm.trans ht
    rw [hsame t hne]
    exact h.killed t ht
  case quiet =>
    intro t ht
    have hne : t ≠ a := by
      rintro rfl
      cases hmay.symm.trans ht
    exact (Function.update_of_ne hne _ _).trans (h.quiet t ht)

omit [DecidableEq π] [DecidableEq l] in
theorem kill (h : Unheld s) (hnot : ¬ s.Holds a) : Unheld (s.setLife a .killed) where
  doomed := h.doomed
  killed := by
    intro t ht
    rcases eq_or_ne t a with rfl | hne
    · exact hnot
    · exact h.killed t (by simpa [hne] using ht)
  quiet := h.quiet

theorem act {i : Event π τ l} (h : Unheld s) (ha : s.Alive i.actor) (hok : s.Unburdened i)
    (hs : s.act i = some s') : Unheld s' := by
  cases i with
  | exec a => exact h.of_lockEffect ha (exec_lockEffect hs) hok
  | leave a =>
    simp only [Procs.act, Option.ite_none_right_eq_some, Option.some.injEq] at hs
    obtain ⟨⟨-, hheld⟩, rfl⟩ := hs
    exact h.goto ha hheld
  | exit a q =>
    simp only [Procs.act, Option.ite_none_right_eq_some, Option.some.injEq] at hs
    obtain ⟨-, rfl⟩ := hs
    exact h.goto ha hok
  | acquire a x =>
    simp only [Procs.act, Option.ite_none_right_eq_some, Option.some.injEq] at hs
    obtain ⟨⟨hmay, -⟩, rfl⟩ := hs
    exact h.setHeld ha hmay
  | release a x =>
    simp only [Procs.act, Option.ite_none_right_eq_some, Option.some.injEq] at hs
    obtain ⟨⟨hmay, -⟩, rfl⟩ := hs
    exact h.setHeld ha hmay
  | threadExit a =>
    simp only [Procs.act, Option.ite_none_right_eq_some, Option.some.injEq] at hs
    obtain ⟨⟨hp, -⟩, rfl⟩ := hs
    have hheld := h.quiet a (by simp [hp, mayLock])
    exact h.kill (by simp [Holds, hheld, hp])
  | enter a =>
    simp only [Procs.act, Option.ite_none_right_eq_some, Option.some.injEq] at hs
    obtain ⟨hp, rfl⟩ := hs
    exact h.goto ha (h.quiet a (by simp [hp, mayLock]))
  | newProcess a q =>
    simp only [Procs.act, Option.ite_none_right_eq_some, Option.some.injEq] at hs
    obtain ⟨⟨hp, -⟩, rfl⟩ := hs
    refine h.of_lockEffect ha (.move rfl rfl (by simp [mayLock]) (fun _ => id) rfl) ?_
    simp [victim, Event.actor, hp]
  | fork a q =>
    simp only [Procs.act, Option.ite_none_right_eq_some, Option.some.injEq] at hs
    obtain ⟨⟨hp, -⟩, rfl⟩ := hs
    refine h.of_lockEffect ha (.move rfl rfl (by simp [mayLock]) (fun _ => id) rfl) ?_
    simp [victim, Event.actor, hp]
  | addTask a =>
    simp only [Procs.act, Option.ite_none_right_eq_some, Option.map_eq_some_iff] at hs
    obtain ⟨hp, q, -, rfl⟩ := hs
    refine h.of_lockEffect ha (.move rfl rfl (by simp [mayLock]) (fun _ => id) rfl) ?_
    simp [victim, Event.actor, hp]
  | reap a =>
    simp only [Procs.act, Option.ite_none_right_eq_some, Option.some.injEq] at hs
    obtain ⟨hp, rfl⟩ := hs
    refine h.of_lockEffect ha (.move rfl rfl (by simp [mayLock]) (fun _ => id) rfl) ?_
    simp [victim, Event.actor, hp]
  | create a t =>
    simp only [Procs.act] at hs
    split at hs
    case h_3 => cases hs
    all_goals
      rename_i hp
      simp only [createTask, Option.ite_none_right_eq_some, Option.some.injEq] at hs
      obtain ⟨-, rfl⟩ := hs
      refine h.of_lockEffect ha (.move rfl rfl (by simp [mayLock]) ?_ rfl) ?_
      · intro u hu
        rcases eq_or_ne u t with rfl | hne
        · simp at hu
        · simpa [hne] using hu
      · simp [victim, Event.actor, hp]
  | die a => cases hs

theorem step {i : Event π τ l} (h : Unheld s) (hok : s.Unburdened i) (hs : s.step i = some s') :
    Unheld s' := by
  by_cases hi : ∃ a, i = .die a
  · obtain ⟨a, rfl⟩ := hi
    simp only [Procs.step, Option.ite_none_right_eq_some, Option.some.injEq] at hs
    obtain ⟨⟨-, hd⟩, rfl⟩ := hs
    exact h.kill (h.doomed a hd)
  · cases i
    case die a => exact absurd ⟨a, rfl⟩ hi
    all_goals
      simp only [Procs.step, Option.ite_none_right_eq_some] at hs
      exact h.act hs.1 hok hs.2

end Unheld

/-- In a run in which neither the caller of `UserProcess::exit` nor a task that it redirects has a
lock, no task is dead while it has one. -/
theorem not_holds_of_unburdened (tasks : List τ)
    (h : Run.Reachable step Unburdened (init tasks : Procs π τ l) s) (ht : s.life t = .killed) :
    ¬ s.Holds t := by
  have hu : Unheld s := h.invariant (Unheld.init tasks) fun _ _ _ hs hok hstep => hs.step hok hstep
  exact hu.killed t ht

attribute [local instance] neZero_two neZero_three

/-- The first task of a process starts a second one. -/
def threadCalls : List (Event (Fin 2) (Fin 3) Unit) :=
  bootCalls ++ [Event.enter 1, .addTask 1, .exec 1, .create 1 2, .exec 1, .exec 1,
    .exec 1, .leave 1]

/-- The first task of the process exits, and the second one dies. -/
def exitCalls : List (Event (Fin 2) (Fin 3) Unit) :=
  Event.exit 1 0 :: List.replicate 6 (.exec 1) ++ [Event.die 2]

theorem not_holds_of_unburdened_exitCalls :
    ∃ s, Run.guardedRun step Unburdened (init [0]) (threadCalls ++ exitCalls) = some s ∧
      s.life 2 = .killed ∧ ¬ s.Holds 2 := by
  have hrun : (Run.guardedRun step Unburdened (init [0]) (threadCalls ++ exitCalls)).map
      (fun s => s.life 2) = some .killed := by decide_cbv
  obtain ⟨s, hs, hk⟩ := Option.map_eq_some_iff.mp hrun
  exact ⟨s, hs, hk, not_holds_of_unburdened [0] (Run.reachable_of_guardedRun hs) hk⟩

/-- The second task has a lock in the kernel when the first one exits. -/
def strandedCalls : List (Event (Fin 2) (Fin 3) Unit) :=
  threadCalls ++ [.enter 2, .acquire 2 ()] ++ exitCalls

theorem not_forall_not_holds : ¬ ∀ (s : Procs (Fin 2) (Fin 3) Unit) (t : Fin 3),
    Run.Reachable step (fun _ _ => True) (init [0]) s → s.life t = .killed → ¬ s.Holds t := by
  have hrun : (strandedCalls.foldlM step (init [0])).map
      (fun s => (s.life 2, s.held 2)) = some (.killed, [()]) := by decide_cbv
  obtain ⟨s, hs, heq⟩ := Option.map_eq_some_iff.mp hrun
  rw [Prod.mk.injEq] at heq
  intro hall
  apply hall s 2 (Run.reachable_of_foldlM hs) heq.1
  exact .inl (by simp [heq.2])

end Procs

end Koerix
