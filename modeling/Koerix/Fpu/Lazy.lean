import Koerix.Fpu.Basic

/-! # Lazy switching

What the last FPU instruction of a task left in the registers is kept next to
the FPU. It is in the registers if the task is `s_fpuTask`, and else in the
context of the task. So a task finds the registers as if nobody else had used
them. A child does so from the context that `Context::clone()` copies, which is
behind the registers of the parent when these are still in the FPU.
-/

namespace Koerix

/-- The FPU, with the registers as the last FPU instruction of each task has left them, or with
the initial context of the task. -/
structure Watched (τ R : Type) where
  fpu : Fpu τ R
  left : τ → R

namespace Watched

open Fpu

variable {τ R : Type} [DecidableEq τ]

def init (regs : R) (context : τ → R) : Watched τ R := ⟨Fpu.init true regs context, context⟩

/-- What changes in `left` by an event, with the FPU before and after it. -/
def leave (s s' : Fpu τ R) (left : τ → R) : Event τ R → τ → R
  | .instruction _ => s.currentTask.elim left fun t => Function.update left t s'.regs
  | .create t _ _ | .fork t => Function.update left t (s'.context t)
  | .schedule _ | .clear | .exit | .delete _ => left

def step (w : Watched τ R) (e : Event τ R) : Option (Watched τ R) := do
  let fpu ← w.fpu.step e
  return ⟨fpu, leave w.fpu fpu w.left e⟩

def Legal (w : Watched τ R) (e : Event τ R) : Prop := w.fpu.Legal e

instance (w : Watched τ R) (e : Event τ R) : Decidable (w.Legal e) :=
  inferInstanceAs (Decidable (w.fpu.Legal e))

variable {w w' : Watched τ R} {e : Event τ R} {t u : τ}

/-- The registers of a task are in the FPU or in its context. -/
structure Inv (w : Watched τ R) : Prop where
  enabled : w.fpu.fpuEnabled = true
  owner : ∀ t, w.fpu.fpuTask = some t → w.fpu.task t = some ⟨true, .running⟩
  quiet : w.fpu.trap = false → w.fpu.currentTask = w.fpu.fpuTask
  live : ∀ t, w.fpu.fpuTask = some t → w.fpu.regs = w.left t
  kept : ∀ t, w.fpu.task t = some ⟨true, .running⟩ → w.fpu.fpuTask ≠ some t →
    w.fpu.context t = w.left t

omit [DecidableEq τ] in
theorem inv_init (regs : R) (context : τ → R) : Inv (init regs context) where
  enabled := rfl
  owner t ht := by cases ht
  quiet h := by cases h
  live t ht := by cases ht
  kept t ht _ := by cases ht

namespace Inv

/-- The state after `onFault`. -/
theorem onFault (hinv : Inv w) (hx : w.fpu.Executing t) :
    ∃ s, w.fpu.onFault = some s ∧ s.fpuTask = some t ∧ s.currentTask = some t ∧
      s.task = w.fpu.task ∧ Inv ⟨s, w.left⟩ := by
  have hcur : { w.fpu with trap := false }.currentUserTask = some t :=
    Executing.currentUserTask (s := { w.fpu with trap := false }) hx
  simp only [Fpu.onFault, clearTrap_of_enabled hinv.enabled, hcur, Option.bind_eq_bind,
    Option.bind_some]
  by_cases howner : w.fpu.fpuTask = some t
  · rw [if_pos howner]
    exact ⟨_, rfl, howner, hx.1, rfl, hinv.enabled, hinv.owner, fun _ => hx.1.trans howner.symm,
      hinv.live, hinv.kept⟩
  rw [if_neg howner]
  cases hf : w.fpu.fpuTask with
  | none =>
    refine ⟨{ w.fpu with trap := false, regs := w.fpu.context t, fpuTask := some t },
      by simp [restore, hx.2], rfl, hx.1, rfl, hinv.enabled, ?_, fun _ => hx.1, ?_, ?_⟩
    · rintro u ⟨⟩
      exact hx.2
    · rintro u ⟨⟩
      exact hinv.kept t hx.2 howner
    · intro u hu _
      exact hinv.kept u hu (by simp [hf])
  | some v =>
    have hvt : t ≠ v := fun h => howner (h ▸ hf)
    refine ⟨{ w.fpu with
      trap := false, context := Function.update w.fpu.context v w.fpu.regs,
      regs := w.fpu.context t, fpuTask := some t },
      by simp [save, restore, hx.2, hinv.owner v hf, hvt], rfl, hx.1, rfl, hinv.enabled, ?_,
      fun _ => hx.1, ?_, ?_⟩
    · rintro u ⟨⟩
      exact hx.2
    · rintro u ⟨⟩
      exact hinv.kept t hx.2 howner
    · intro u hu _
      rcases eq_or_ne u v with rfl | huv
      · exact (Function.update_self _ _ _).trans (hinv.live u hf)
      · refine (Function.update_of_ne huv _ _).trans (hinv.kept u hu ?_)
        rw [hf]
        exact fun h => huv (Option.some.inj h).symm

theorem faulted (hinv : Inv w) (hx : w.fpu.Executing t) :
    ∃ s, w.fpu.faulted = some s ∧ s.fpuTask = some t ∧ s.currentTask = some t ∧
      s.task = w.fpu.task ∧ Inv ⟨s, w.left⟩ := by
  rw [Fpu.faulted]
  cases htrap : w.fpu.trap with
  | true => exact hinv.onFault hx
  | false => exact ⟨w.fpu, rfl, (hinv.quiet htrap).symm.trans hx.1, hx.1, rfl, hinv⟩

theorem sees (hinv : Inv w) (hx : w.fpu.Executing t) : w.fpu.sees = some (w.left t) := by
  obtain ⟨s, hs, howner, -, -, hinv'⟩ := hinv.faulted hx
  rw [Fpu.sees, hs, Option.map_some, hinv'.live t howner]

theorem schedule (hinv : Inv w) (next : τ) : Inv ⟨w.fpu.schedule next, w.left⟩ := by
  by_cases hcur : w.fpu.currentTask = some next
  · rwa [Fpu.schedule, if_pos hcur]
  · rw [Fpu.schedule, if_neg hcur, enableTrap_of_enabled hinv.enabled]
    exact ⟨hinv.enabled, hinv.owner, nofun, hinv.live, hinv.kept⟩

theorem instruction (hinv : Inv w) (hx : w.fpu.Executing t) (f : R → R) :
    ∃ s, w.fpu.step (.instruction f) = some s ∧
      Inv ⟨s, Function.update w.left t s.regs⟩ := by
  obtain ⟨s, hs, howner, hcur, -, hinv'⟩ := hinv.faulted hx
  refine ⟨{ s with regs := f s.regs }, by simp [Fpu.step, hs], hinv'.enabled, hinv'.owner,
    hinv'.quiet, ?_, ?_⟩
  · intro u hu
    rw [howner] at hu
    cases hu
    exact (Function.update_self t (f s.regs) w.left).symm
  · intro u hu hne
    have hut : u ≠ t := by
      rintro rfl
      exact hne howner
    exact (hinv'.kept u hu hne).trans (Function.update_of_ne hut _ _).symm

/-- A new task is not `s_fpuTask`, and its registers are in its context. -/
theorem create (hinv : Inv w) (hdead : w.fpu.task t = none) (isUserTask : Bool) (context : R) :
    Inv ⟨w.fpu.create t isUserTask context, Function.update w.left t context⟩ := by
  have hne : ∀ u, w.fpu.fpuTask = some u → u ≠ t := by
    rintro u hu rfl
    simp [hinv.owner u hu] at hdead
  refine ⟨hinv.enabled, ?_, hinv.quiet, ?_, ?_⟩
  · intro u hu
    exact (Function.update_of_ne (hne u hu) _ _).trans (hinv.owner u hu)
  · intro u hu
    exact (hinv.live u hu).trans (Function.update_of_ne (hne u hu) _ _).symm
  · intro u hu hf
    dsimp only [Fpu.create, setTask] at hu ⊢
    rcases eq_or_ne u t with rfl | hut
    · rw [Function.update_self, Function.update_self]
    · rw [Function.update_of_ne hut] at hu ⊢
      rw [Function.update_of_ne hut]
      exact hinv.kept u hu hf

theorem setTask (hinv : Inv w) (hf : w.fpu.fpuTask ≠ some t) {x : Option FpuTask}
    (hx : x ≠ some ⟨true, .running⟩) : Inv ⟨w.fpu.setTask t x, w.left⟩ := by
  refine ⟨hinv.enabled, ?_, hinv.quiet, hinv.live, ?_⟩
  · intro u hu
    refine (Function.update_of_ne ?_ _ _).trans (hinv.owner u hu)
    rintro rfl
    exact hf hu
  · intro u hu hfu
    refine hinv.kept u ?_ hfu
    dsimp only [Fpu.setTask] at hu
    rwa [Function.update_of_ne] at hu
    rintro rfl
    exact hx ((Function.update_self u x w.fpu.task).symm.trans hu)

theorem clear (hinv : Inv w) (hx : w.fpu.Executing t) :
    Inv ⟨w.fpu.clear.setTask t (some ⟨true, .cleared⟩), w.left⟩ := by
  rw [Fpu.clear]
  split_ifs with hf
  · have howner := hf.trans hx.1
    rw [enableTrap_of_enabled (s := { w.fpu with fpuTask := none }) hinv.enabled]
    refine ⟨hinv.enabled, nofun, nofun, nofun, ?_⟩
    intro u hu _
    dsimp only [Fpu.setTask] at hu
    have hut : u ≠ t := by
      rintro rfl
      simp at hu
    rw [Function.update_of_ne hut] at hu
    refine hinv.kept u hu ?_
    rw [howner]
    exact fun h => hut (Option.some.inj h).symm
  · exact hinv.setTask (fun h => hf (h.trans hx.1.symm)) (by simp)

omit [DecidableEq τ] in
theorem ne_fpuTask (hinv : Inv w) (ht : w.fpu.task t ≠ some ⟨true, .running⟩) :
    w.fpu.fpuTask ≠ some t :=
  fun h => ht (hinv.owner t h)

theorem step (hinv : Inv w) (hok : w.Legal e) : ∃ w', w.step e = some w' ∧ Inv w' := by
  cases e with
  | schedule next => exact ⟨_, rfl, hinv.schedule next⟩
  | instruction f =>
    obtain ⟨t, -, hx⟩ := hok
    obtain ⟨s, hs, hinv'⟩ := hinv.instruction hx f
    refine ⟨⟨s, Function.update w.left t s.regs⟩, ?_, hinv'⟩
    simp [Watched.step, hs, leave, hx.1]
  | create t isUserTask context =>
    refine ⟨_, rfl, ?_⟩
    have hctx : (w.fpu.create t isUserTask context).context t = context := by
      simp [Fpu.create]
    rw [leave, hctx]
    exact hinv.create hok isUserTask context
  | fork t =>
    obtain ⟨⟨u, -, hx⟩, hdead⟩ := hok
    have hinv' := hinv.create hdead true (w.fpu.context u)
    refine ⟨_, ?_, hinv'⟩
    simp [Watched.step, Fpu.step, hx.currentUserTask, leave, Fpu.create]
  | clear =>
    obtain ⟨t, -, hx⟩ := hok
    refine ⟨_, ?_, hinv.clear hx⟩
    simp [Watched.step, Fpu.step, hx.currentUserTask, leave]
  | exit =>
    obtain ⟨t, hcur, ht⟩ := hok
    rw [Option.mem_def] at hcur
    have hne : w.fpu.fpuTask ≠ some t := by
      apply hinv.ne_fpuTask
      rcases ht with ht | ht <;> simp [ht]
    obtain ⟨info, hinfo⟩ : ∃ info, w.fpu.task t = some info := by
      rcases ht with ht | ht <;> exact ⟨_, ht⟩
    refine ⟨_, ?_, hinv.setTask hne (x := some ⟨info.isUserTask, .killed⟩) (by simp)⟩
    simp [Watched.step, Fpu.step, Fpu.exit, hcur, hinfo, leave]
  | delete t =>
    obtain ⟨⟨info, hinfo, hkilled⟩, -⟩ := hok
    have hne : w.fpu.task t ≠ some ⟨true, .running⟩ := by
      rintro ht
      rw [Option.mem_def, ht] at hinfo
      cases hinfo
      cases hkilled
    exact ⟨_, rfl, hinv.setTask (hinv.ne_fpuTask hne) nofun⟩

theorem of_step (hinv : Inv w) (hok : w.Legal e) (hs : w.step e = some w') : Inv w' := by
  obtain ⟨w₁, hw₁, hinv'⟩ := hinv.step hok
  rw [hs] at hw₁
  cases hw₁
  exact hinv'

theorem reachable {regs : R} {context : τ → R}
    (h : Run.Reachable Watched.step Legal (init regs context) w) : Inv w :=
  h.invariant (inv_init regs context) fun _ _ _ hinv hok hs => hinv.of_step hok hs

end Inv

/-- In every run an FPU instruction sees the registers as the last one of its task left them, or
the initial context of the task, and `s_fpuTask` has not begun to exit. -/
theorem sees_left (regs : R) (context : τ → R) (w : Watched τ R)
    (h : Run.Reachable step Legal (init regs context) w) :
    (∀ t, w.fpu.Executing t → w.fpu.sees = some (w.left t)) ∧
      ∀ t, w.fpu.fpuTask = some t → w.fpu.task t = some ⟨true, .running⟩ := by
  have hinv := Inv.reachable h
  exact ⟨fun t hx => hinv.sees hx, hinv.owner⟩

/-- Two tasks use the FPU in turn, and the first one exits. -/
def twoTasks : List (Event Bool ℕ) :=
  [.create true true 10, .create false true 20, .schedule true, .instruction (· + 1),
    .schedule false, .instruction (· + 2), .schedule true, .instruction (· + 1), .clear, .exit,
    .schedule false]

/-- What is left of the registers of the second task. -/
theorem sees_left_twoTasks : ∃ w : Watched Bool ℕ,
    Run.guardedRun step Legal (init 0 fun _ => 0) twoTasks = some w ∧ w.fpu.regs = 12 ∧
      w.fpu.sees = some 22 := by
  have hrun : (Run.guardedRun step Legal (init 0 fun _ => 0) twoTasks).map
      (fun w => (w.fpu.regs, w.fpu.currentTask, w.fpu.task false, w.left false)) =
        some (12, some false, some ⟨true, .running⟩, 22) := by
    decide +kernel
  obtain ⟨w, hw, heq⟩ := Option.map_eq_some_iff.mp hrun
  simp only [Prod.mk.injEq] at heq
  obtain ⟨hregs, hcur, htask, hleft⟩ := heq
  refine ⟨w, hw, hregs, ?_⟩
  rw [← hleft]
  exact (sees_left 0 (fun _ => 0) w (Run.reachable_of_guardedRun hw)).1 false ⟨hcur, htask⟩

/-! ### Fork -/

/-- The event is not an FPU instruction of the task `t`, nor the beginning of its exit. -/
def Untouched (t : τ) (w : Watched τ R) (e : Event τ R) : Prop :=
  w.Legal e ∧ (e.byUser = true → w.fpu.currentTask ≠ some t)

instance (t : τ) (w : Watched τ R) (e : Event τ R) : Decidable (Untouched t w e) :=
  inferInstanceAs (Decidable (_ ∧ _))

/-- What the other tasks do keeps the registers of a task. -/
theorem left_of_untouched (hinv : Inv w) (ht : w.fpu.task t = some ⟨true, .running⟩)
    (hok : Untouched t w e) (hs : w.step e = some w') :
    w'.left t = w.left t ∧ w'.fpu.task t = some ⟨true, .running⟩ := by
  obtain ⟨hlegal, hne⟩ := hok
  have hnew : ∀ u, w.fpu.task u = none → t ≠ u := by
    rintro u hu rfl
    simp [ht] at hu
  cases e with
  | schedule next =>
    simp only [step, Fpu.step, Option.bind_eq_bind, Option.bind_some, Option.pure_def,
      Option.some.injEq] at hs
    subst hs
    refine ⟨rfl, ?_⟩
    dsimp only [Fpu.schedule]
    split_ifs
    · exact ht
    · rwa [enableTrap_of_enabled hinv.enabled]
  | instruction f =>
    obtain ⟨u, -, hx⟩ := hlegal
    have htu : t ≠ u := by
      rintro rfl
      exact hne rfl hx.1
    obtain ⟨s, hf, -, -, htask, -⟩ := hinv.faulted hx
    simp only [step, Fpu.step, hf, Option.bind_eq_bind, Option.bind_some, Option.pure_def,
      Option.some.injEq] at hs
    subst hs
    refine ⟨?_, (congrFun htask t).trans ht⟩
    simp [leave, hx.1, Function.update_of_ne htu]
  | create u isUserTask context =>
    have htu := hnew u hlegal
    cases hs
    exact ⟨Function.update_of_ne htu _ _, (Function.update_of_ne htu _ _).trans ht⟩
  | fork u =>
    obtain ⟨⟨v, -, hx⟩, hdead⟩ := hlegal
    have htu := hnew u hdead
    simp only [step, Fpu.step, hx.currentUserTask, Option.bind_eq_bind, Option.bind_some,
      Option.pure_def, Option.some.injEq] at hs
    subst hs
    exact ⟨Function.update_of_ne htu _ _, (Function.update_of_ne htu _ _).trans ht⟩
  | clear =>
    obtain ⟨u, -, hx⟩ := hlegal
    have htu : t ≠ u := by
      rintro rfl
      exact hne rfl hx.1
    simp only [step, Fpu.step, hx.currentUserTask, Option.bind_eq_bind, Option.bind_some,
      Option.pure_def, Option.some.injEq] at hs
    subst hs
    refine ⟨rfl, (Function.update_of_ne htu _ _).trans ?_⟩
    dsimp only [Fpu.clear]
    split_ifs
    · rwa [enableTrap_of_enabled (s := { w.fpu with fpuTask := none }) hinv.enabled]
    · exact ht
  | exit =>
    obtain ⟨u, hcur, hu⟩ := hlegal
    rw [Option.mem_def] at hcur
    have htu : t ≠ u := by
      rintro rfl
      rcases hu with hu | hu <;> simp [ht] at hu
    obtain ⟨info, hinfo⟩ : ∃ info, w.fpu.task u = some info := by
      rcases hu with hu | hu <;> exact ⟨_, hu⟩
    simp only [step, Fpu.step, Fpu.exit, hcur, hinfo, Option.bind_eq_bind, Option.bind_some,
      Option.pure_def, Option.some.injEq] at hs
    subst hs
    exact ⟨rfl, (Function.update_of_ne htu _ _).trans ht⟩
  | delete u =>
    obtain ⟨⟨info, hinfo, hkilled⟩, -⟩ := hlegal
    have htu : t ≠ u := by
      rintro rfl
      rw [Option.mem_def, ht] at hinfo
      cases hinfo
      cases hkilled
    cases hs
    exact ⟨rfl, (Function.update_of_ne htu _ _).trans ht⟩

theorem left_of_reachable_untouched (hinv : Inv w) (ht : w.fpu.task t = some ⟨true, .running⟩)
    (h : Run.Reachable step (Untouched t) w w') : Inv w' ∧ w'.left t = w.left t := by
  have hrun : Inv w' ∧ w'.left t = w.left t ∧ w'.fpu.task t = some ⟨true, .running⟩ := by
    refine h.invariant (P := fun v => Inv v ∧ v.left t = w.left t ∧
      v.fpu.task t = some ⟨true, .running⟩) ⟨hinv, rfl, ht⟩ ?_
    rintro v e v' ⟨hv, hleft, hrunning⟩ hok hs
    obtain ⟨hleft', hrunning'⟩ := left_of_untouched hv hrunning hok hs
    exact ⟨hv.of_step hok.1 hs, hleft'.trans hleft, hrunning'⟩
  exact ⟨hrun.1, hrun.2.1⟩

/-- The first FPU instruction of a child sees the registers of its parent at the fork exactly if
these were not in the FPU, or the context of the parent held the same. -/
theorem sees_fork_iff (regs : R) (context : τ → R) (w w₁ w₂ : Watched τ R) (parent child : τ)
    (h : Run.Reachable step Legal (init regs context) w) (hx : w.fpu.Executing parent)
    (hdead : w.fpu.task child = none) (hfork : w.step (.fork child) = some w₁)
    (hrun : Run.Reachable step (Untouched child) w₁ w₂) (hchild : w₂.fpu.Executing child) :
    w₂.fpu.sees = w.fpu.sees ↔
      w.fpu.fpuTask ≠ some parent ∨ w.fpu.regs = w.fpu.context parent := by
  have hinv := Inv.reachable h
  have hinv₁ : Inv w₁ := hinv.of_step (e := .fork child) ⟨⟨parent, hx.1, hx⟩, hdead⟩ hfork
  simp only [step, Fpu.step, hx.currentUserTask, Option.bind_eq_bind, Option.bind_some,
    Option.pure_def, Option.some.injEq] at hfork
  subst hfork
  have hleft : leave w.fpu (w.fpu.create child true (w.fpu.context parent)) w.left (.fork child)
      child = w.fpu.context parent :=
    (Function.update_self _ _ _).trans (Function.update_self _ _ _)
  obtain ⟨hinv₂, hleft₂⟩ := left_of_reachable_untouched hinv₁ (Function.update_self _ _ _) hrun
  rw [hinv₂.sees hchild, hinv.sees hx, Option.some.injEq, hleft₂.trans hleft]
  by_cases howner : w.fpu.fpuTask = some parent
  · rw [← hinv.live parent howner]
    simp [howner, eq_comm]
  · simp [howner, hinv.kept parent hx.2 howner]

/-- The task 0 forks the task 2 after the given events, and the child is scheduled. -/
def forkAfter (es : List (Event (Fin 3) ℕ)) :
    Option (Watched (Fin 3) ℕ × Watched (Fin 3) ℕ × Watched (Fin 3) ℕ) := do
  let w ← Run.guardedRun step Legal (init 0 fun _ => 0) es
  let w₁ ← w.step (.fork 2)
  let w₂ ← Run.guardedRun step (Untouched 2) w₁ [.schedule 2]
  return (w, w₁, w₂)

/-- The parent has used the FPU, and then another task has. -/
def usedInTurn : List (Event (Fin 3) ℕ) :=
  [.create 0 true 10, .create 1 true 20, .schedule 0, .instruction (· + 1), .schedule 1,
    .instruction (· + 1), .schedule 0]

theorem sees_fork_iff_usedInTurn : ∃ w w₁ w₂, forkAfter usedInTurn = some (w, w₁, w₂) ∧
    w.fpu.fpuTask = some 1 ∧ w₂.fpu.sees = w.fpu.sees := by
  have hrun : (forkAfter usedInTurn).map (fun (w, _, w₂) =>
      ([w.fpu.fpuTask, w.fpu.currentTask, w₂.fpu.currentTask],
        [w.fpu.task 0, w.fpu.task 2, w₂.fpu.task 2])) =
      some ([some 1, some 0, some 2],
        [some ⟨true, .running⟩, none, some ⟨true, .running⟩]) := by
    decide +kernel
  obtain ⟨⟨w, w₁, w₂⟩, hw, heq⟩ := Option.map_eq_some_iff.mp hrun
  simp only [Prod.mk.injEq, List.cons.injEq, and_true] at heq
  obtain ⟨⟨howner, hcur, hcur₂⟩, hparent, hdead, hchild⟩ := heq
  refine ⟨w, w₁, w₂, hw, howner, ?_⟩
  simp only [forkAfter, Option.bind_eq_bind, Option.bind_eq_some_iff, Option.pure_def,
    Option.some.injEq, Prod.mk.injEq] at hw
  obtain ⟨_, hbefore, _, hfork, _, hafter, rfl, rfl, rfl⟩ := hw
  exact (sees_fork_iff 0 (fun _ => 0) _ _ _ 0 2 (Run.reachable_of_guardedRun hbefore)
    ⟨hcur, hparent⟩ hdead hfork (Run.reachable_of_guardedRun hafter) ⟨hcur₂, hchild⟩).mpr
    (Or.inl (by simp [howner]))

/-- The parent has used the FPU, and its registers are still there. -/
def usedAlone : List (Event (Fin 3) ℕ) :=
  [.create 0 true 10, .schedule 0, .instruction (· + 1)]

theorem not_sees_fork : ¬ ∀ (w w₁ w₂ : Watched (Fin 3) ℕ) (parent child : Fin 3),
    Run.Reachable step Legal (init 0 fun _ => 0) w → w.fpu.Executing parent →
    w.fpu.task child = none → w.step (.fork child) = some w₁ →
    Run.Reachable step (Untouched child) w₁ w₂ → w₂.fpu.Executing child →
    w₂.fpu.sees = w.fpu.sees := by
  intro hall
  have hrun : (forkAfter usedAlone).map (fun (w, _, w₂) =>
      ([w.fpu.sees, w₂.fpu.sees], [w.fpu.currentTask, w₂.fpu.currentTask],
        [w.fpu.task 0, w.fpu.task 2, w₂.fpu.task 2])) =
      some ([some 11, some 10], [some 0, some 2],
        [some ⟨true, .running⟩, none, some ⟨true, .running⟩]) := by
    decide +kernel
  obtain ⟨⟨w, w₁, w₂⟩, hw, heq⟩ := Option.map_eq_some_iff.mp hrun
  simp only [Prod.mk.injEq, List.cons.injEq, and_true] at heq
  obtain ⟨⟨hsees, hsees₂⟩, ⟨hcur, hcur₂⟩, hparent, hdead, hchild⟩ := heq
  simp only [forkAfter, Option.bind_eq_bind, Option.bind_eq_some_iff, Option.pure_def,
    Option.some.injEq, Prod.mk.injEq] at hw
  obtain ⟨_, hbefore, _, hfork, _, hafter, rfl, rfl, rfl⟩ := hw
  have heq := hall _ _ _ 0 2 (Run.reachable_of_guardedRun hbefore) ⟨hcur, hparent⟩ hdead hfork
    (Run.reachable_of_guardedRun hafter) ⟨hcur₂, hchild⟩
  rw [hsees, hsees₂] at heq
  cases heq

end Watched

end Koerix
