import Koerix.Proc.Basic
import Mathlib.Algebra.GroupWithZero.Nat

/-! # The reaper and processes under construction

`checkForDeadProcesses` deletes a process that has no tasks. A process that is
built by `fork` is on the list of processes before its first task is on
`m_taskList`, so it may be deleted too early. Nothing else goes wrong.
-/

namespace Koerix

namespace Procs

variable {π τ l : Type*}

/-- The task has taken the lock of the list of processes. -/
@[simp] def OwnsList : ProcPc π τ → Prop
  | .listPush _ _ | .listUnlock _ _ => True
  | .reapProc _ | .reapTasks _ _ _ | .reapSize _ _ | .reapUnlock _ _ | .reapTest _ _ => True
  | .reapDone => True
  | _ => False

/-- The process whose `m_taskListLock` the task has taken. -/
@[simp] def tasksLock : ProcPc π τ → Option π
  | .addTask q _ | .addPush q _ _ | .addInsert q _ _ | .addUnlock q _ => some q
  | .exitTest q | .exitKill q _ | .exitUnlock q => some q
  | .reapTasks q _ _ | .reapSize q _ | .reapUnlock q _ => some q
  | _ => none

/-- The process that the task constructs, and how far it is. -/
@[simp] def constructing : ProcPc π τ → Option (π × Phase)
  | .addLock q true | .addTask q true | .addPush q true _ => some (q, .started)
  | .addInsert q true _ | .addUnlock q true => some (q, .populated)
  | .listLock q forked | .listPush q forked | .listUnlock q forked =>
    some (q, if forked then .started else .populated)
  | .forkTask q | .forkPush q _ => some (q, .started)
  | .forkInsert q _ => some (q, .populated)
  | _ => none

/-- The process that the task will put on the list of processes. -/
@[simp] def listing : ProcPc π τ → Option π
  | .addLock q true | .addTask q true | .addPush q true _ | .addInsert q true _ => some q
  | .addUnlock q true | .listLock q _ | .listPush q _ => some q
  | _ => none

/-- The new task that the task will put on `m_taskList`. -/
@[simp] def pushing : ProcPc π τ → Option (π × τ)
  | .addPush q _ t | .forkPush q t => some (q, t)
  | _ => none

/-- The new task that the task will start. -/
@[simp] def inserting : ProcPc π τ → Option (π × τ)
  | .addInsert q _ t | .forkInsert q t => some (q, t)
  | _ => none

/-- The new task that the task handles. -/
@[simp] def handling (p : ProcPc π τ) : Option τ := (pushing p <|> inserting p).map Prod.snd

/-- The process to which the task adds a thread. -/
@[simp] def adding : ProcPc π τ → Option π
  | .addLock q false | .addTask q false | .addPush q false _ => some q
  | _ => none

/-- The process that the reaper looks at. -/
@[simp] def reaping : ProcPc π τ → Option π
  | .reapTasks q _ _ | .reapSize q _ | .reapUnlock q _ | .reapTest q _ => some q
  | _ => none

/-- The invariant of all interleavings. -/
structure Inv (s : Procs π τ l) : Prop where
  list : Owned OwnsList s.pc s.procListLock
  tasks : ∀ q, Owned (fun p => tasksLock p = some q) s.pc (s.proc q).taskListLock
  builder : ∀ a b q x y, constructing (s.pc a) = some (q, x) → constructing (s.pc b) = some (q, y) →
    a = b
  phase_eq : ∀ a q x, constructing (s.pc a) = some (q, x) → s.phase q = x
  building : ∀ q, s.phase q = .populated → ∃ a x, constructing (s.pc a) = some (q, x)
  unlisted : ∀ a q, listing (s.pc a) = some q → q ∉ s.procList
  listed : ∀ q ∈ s.procList, s.phase q ≠ .unborn
  handler : ∀ a b t, handling (s.pc a) = some t → handling (s.pc b) = some t → a = b
  fresh : ∀ a t, handling (s.pc a) = some t → s.life t = .fresh
  inserted : ∀ a q t, inserting (s.pc a) = some (q, t) → t ∈ (s.proc q).taskList
  adder : ∀ a q, adding (s.pc a) = some q → a ∈ s.created q
  reaped : ∀ a q, reaping (s.pc a) = some q → q ∈ s.procList
  created : ∀ q, ∀ t ∈ s.created q, t ∈ (s.proc q).taskList ∨ s.life t = .removed ∨
    ∃ a, pushing (s.pc a) = some (q, t)
  owned : ∀ t q, s.owner t = some q → t ∈ s.created q
  done : ∀ q, (s.proc q).state = .toBeDeleted ∨ s.deleted q = true →
    s.phase q = .constructed ∧ ∀ t ∈ s.created q, s.life t = .removed

/-- What a step of a task may do. -/
structure Effect (s s' : Procs π τ l) (a : τ) : Prop where
  alive : s.life a = .running
  old : ∀ b, b ≠ a → s'.pc b = s.pc b
  constructs : ∀ q x, constructing (s'.pc a) = some (q, x) →
    s'.phase q = x ∧ ((∃ y, constructing (s.pc a) = some (q, y)) ∨ s.phase q = .unborn)
  phase : ∀ q, s'.phase q = s.phase q ∨ (∃ x, constructing (s'.pc a) = some (q, x)) ∨
    s'.phase q = .constructed ∧ ∃ x, constructing (s.pc a) = some (q, x)
  ends : ∀ q x, constructing (s.pc a) = some (q, x) →
    (∃ y, constructing (s'.pc a) = some (q, y)) ∨ s'.phase q = .constructed
  lists : ∀ q, listing (s'.pc a) = some q → listing (s.pc a) = some q ∨ s.phase q = .unborn
  unlists : ∀ q, listing (s'.pc a) = some q → s'.procList = s.procList
  procs : ∀ q ∈ s'.procList, q ∈ s.procList ∨ listing (s.pc a) = some q
  handles : ∀ t, handling (s'.pc a) = some t → s'.life t = .fresh ∧
    (handling (s.pc a) = some t ∨ s.life t = .unborn)
  fresh : ∀ t, s.life t = .fresh → s'.life t = .fresh ∨ handling (s.pc a) = some t
  removed : ∀ t, s.life t = .removed → s'.life t = .removed
  inserts : ∀ q t, inserting (s'.pc a) = some (q, t) → t ∈ (s'.proc q).taskList
  taskList : ∀ q, ∀ t ∈ (s.proc q).taskList, t ∈ (s'.proc q).taskList ∨
    s.life t = .killed ∧ s'.life t = .removed
  pushes : ∀ q t, pushing (s.pc a) = some (q, t) →
    pushing (s'.pc a) = some (q, t) ∨ t ∈ (s'.proc q).taskList
  creates : ∀ q, ∀ t ∈ s'.created q, t ∈ s.created q ∨ pushing (s'.pc a) = some (q, t) ∧
    (adding (s.pc a) = some q ∨ ∃ x, constructing (s.pc a) = some (q, x))
  created : ∀ q, ∀ t ∈ s.created q, t ∈ s'.created q
  adds : ∀ q, adding (s'.pc a) = some q → a ∈ s.created q
  owner : ∀ t q, s'.owner t = some q → s.owner t = some q ∨ t ∈ s'.created q
  reaps : ∀ q, reaping (s'.pc a) = some q → q ∈ s'.procList
  keeps : OwnsList (s.pc a) ∨ ∀ q ∈ s.procList, q ∈ s'.procList
  finishes : ∀ q, (s'.proc q).state = .toBeDeleted ∨ s'.deleted q = true →
    ((s.proc q).state = .toBeDeleted ∨ s.deleted q = true) ∨
      ∃ i, s.pc a = .reapSize q i ∧ (s.proc q).taskList = [] ∧ s.phase q ≠ .started

variable {s s' : Procs π τ l} {a b t : τ} {q : π} {p : ProcPc π τ}

theorem constructing_ne {x : Phase} (h : constructing p = some (q, x)) :
    x = .started ∨ x = .populated := by
  unfold constructing at h
  split at h <;> grind

theorem constructing_of_listing (h : listing p = some q) : ∃ x, constructing p = some (q, x) := by
  unfold listing at h
  split at h <;> simp_all [constructing]

theorem ownsList_of_reaping (h : reaping p = some q) : OwnsList p := by
  unfold reaping at h
  split at h <;> simp_all [OwnsList]

theorem handling_of_inserting (h : inserting p = some (q, t)) : handling p = some t := by
  unfold inserting at h
  split at h <;> simp_all [handling, pushing, inserting]

theorem tasksLock_of_pushing (h : pushing p = some (q, t)) :
    tasksLock p = some q ∨ constructing p = some (q, .started) := by
  unfold pushing at h
  split at h <;> simp_all [tasksLock, constructing]

/-- A constructor that has put its first task on `m_taskList` has a lock, has not put the process
on the list of processes, or has not started the task. -/
theorem populated_cases (h : constructing p = some (q, .populated)) :
    tasksLock p = some q ∨ listing p = some q ∨ OwnsList p ∨ ∃ t, inserting p = some (q, t) := by
  unfold constructing at h
  split at h <;> simp_all [tasksLock, listing, OwnsList, inserting]

namespace Inv

/-- A process without tasks that the reaper looks at is constructed, and its tasks are removed. -/
theorem finished {i : ℕ} (h : Inv s) (hp : s.pc a = .reapSize q i)
    (hempty : (s.proc q).taskList = [])
    (hpop : s.phase q ≠ .started) :
    s.phase q = .constructed ∧ ∀ t ∈ s.created q, s.life t = .removed := by
  have htask : tasksLock (s.pc a) = some q := by simp [hp, tasksLock]
  have hlist : OwnsList (s.pc a) := by simp [hp, OwnsList]
  have hmem : q ∈ s.procList := h.reaped a q (by simp [hp, reaping])
  have hcons : Procs.constructing (s.pc a) = none := by simp [hp, Procs.constructing]
  have hphase : s.phase q = .constructed := by
    cases hq : s.phase q with
    | unborn => exact absurd hq (h.listed q hmem)
    | started => exact absurd hq hpop
    | constructed => rfl
    | populated =>
      obtain ⟨b, x, hb⟩ := h.building q hq
      have hx := h.phase_eq b q x hb
      rw [hq] at hx
      subst hx
      rcases populated_cases hb with hl | hl | hl | ⟨t, ht⟩
      · have := (h.tasks q).unique b a hl htask
        rw [this, hcons] at hb
        cases hb
      · exact absurd hmem (h.unlisted b q hl)
      · have := h.list.unique b a hl hlist
        rw [this, hcons] at hb
        cases hb
      · have := h.inserted b q t ht
        simp [hempty] at this
  refine ⟨hphase, fun t ht => ?_⟩
  rcases h.created q t ht with hl | hr | ⟨b, hb⟩
  · simp [hempty] at hl
  · exact hr
  · rcases tasksLock_of_pushing hb with hl | hc
    · have := (h.tasks q).unique b a hl htask
      simp [this, hp, pushing] at hb
    · have := h.phase_eq b q _ hc
      simp [hphase] at this

theorem born {x : Phase} (h : Inv s) (hc : Procs.constructing (s.pc a) = some (q, x)) :
    s.phase q ≠ .unborn := by
  rw [h.phase_eq a q x hc]
  rcases constructing_ne hc with rfl | rfl <;> simp

theorem not_constructs {x y : Phase} (h : Inv s) (he : Effect s s' a) (hb : b ≠ a)
    (hcb : Procs.constructing (s.pc b) = some (q, x)) :
    Procs.constructing (s.pc a) ≠ some (q, y) ∧ Procs.constructing (s'.pc a) ≠ some (q, y) := by
  have hnot : ∀ z, Procs.constructing (s.pc a) ≠ some (q, z) :=
    fun z hz => hb (h.builder b a q x z hcb hz)
  refine ⟨hnot y, fun hy => ?_⟩
  rcases (he.constructs q y hy).2 with ⟨z, hz⟩ | hu
  · exact hnot z hz
  · have := h.phase_eq b q x hcb
    rcases constructing_ne hcb with rfl | rfl <;> simp [hu] at this

theorem not_handles (h : Inv s) (he : Effect s s' a) (hb : b ≠ a)
    (hhb : Procs.handling (s.pc b) = some t) : Procs.handling (s'.pc a) ≠ some t := by
  intro ha
  rcases (he.handles t ha).2 with ha' | hu
  · exact hb (h.handler b a t hhb ha')
  · rw [h.fresh b t hhb] at hu
    cases hu

theorem constructed (h : Inv s) (he : Effect s s' a) (hq : s.phase q = .constructed) :
    s'.phase q = .constructed := by
  rcases he.phase q with heq | ⟨x, hx⟩ | ⟨hc, -⟩
  · rw [heq, hq]
  · rcases (he.constructs q x hx).2 with ⟨y, hy⟩ | hu
    · have := h.phase_eq a q y hy
      rcases constructing_ne hy with rfl | rfl <;> simp [hq] at this
    · simp [hq] at hu
  · exact hc

theorem builder_of_effect (h : Inv s) (he : Effect s s' a) :
    ∀ b c q x y, Procs.constructing (s'.pc b) = some (q, x) →
    Procs.constructing (s'.pc c) = some (q, y) → b = c := by
  intro b c q x y hb hc
  by_cases hba : b = a <;> by_cases hca : c = a
  · rw [hba, hca]
  · rw [he.old c hca] at hc
    exact absurd (hba ▸ hb) (h.not_constructs he hca hc).2
  · rw [he.old b hba] at hb
    exact absurd (hca ▸ hc) (h.not_constructs he hba hb).2
  · rw [he.old b hba] at hb
    rw [he.old c hca] at hc
    exact h.builder b c q x y hb hc

theorem phase_eq_of_effect (h : Inv s) (he : Effect s s' a) :
    ∀ b q x, Procs.constructing (s'.pc b) = some (q, x) → s'.phase q = x := by
  intro b q x hb
  rcases eq_or_ne b a with rfl | hne
  · exact (he.constructs q x hb).1
  · rw [he.old b hne] at hb
    rw [← h.phase_eq b q x hb]
    rcases he.phase q with heq | ⟨y, hy⟩ | ⟨-, y, hy⟩
    · exact heq
    · exact absurd hy (h.not_constructs he hne hb).2
    · exact absurd hy (h.not_constructs he hne hb).1

theorem building_of_effect (h : Inv s) (he : Effect s s' a) :
    ∀ q, s'.phase q = .populated → ∃ b x, Procs.constructing (s'.pc b) = some (q, x) := by
  intro q hq
  rcases he.phase q with heq | ⟨x, hx⟩ | ⟨hc, -⟩
  · obtain ⟨b, x, hb⟩ := h.building q (heq ▸ hq)
    rcases eq_or_ne b a with rfl | hne
    · rcases he.ends q x hb with ⟨y, hy⟩ | hc
      · exact ⟨b, y, hy⟩
      · simp [hq] at hc
    · exact ⟨b, x, by rwa [he.old b hne]⟩
  · exact ⟨a, x, hx⟩
  · simp [hq] at hc

theorem unlisted_of_effect (h : Inv s) (he : Effect s s' a) :
    ∀ b q, listing (s'.pc b) = some q → q ∉ s'.procList := by
  intro b q hb hmem
  rcases eq_or_ne b a with rfl | hne
  · rw [he.unlists q hb] at hmem
    rcases he.lists q hb with hl | hu
    · exact h.unlisted b q hl hmem
    · exact h.listed q hmem hu
  · rw [he.old b hne] at hb
    rcases he.procs q hmem with hmem' | hl
    · exact h.unlisted b q hb hmem'
    · obtain ⟨x, hx⟩ := constructing_of_listing hb
      obtain ⟨y, hy⟩ := constructing_of_listing hl
      exact hne (h.builder b a q x y hx hy)

theorem listed_of_effect (h : Inv s) (he : Effect s s' a) :
    ∀ q ∈ s'.procList, s'.phase q ≠ .unborn := by
  intro q hq hu
  rcases he.phase q with heq | ⟨x, hx⟩ | ⟨hc, -⟩
  · rw [heq] at hu
    rcases he.procs q hq with hmem | hl
    · exact h.listed q hmem hu
    · obtain ⟨x, hx⟩ := constructing_of_listing hl
      have := h.phase_eq a q x hx
      rcases constructing_ne hx with rfl | rfl <;> simp [hu] at this
  · have := (he.constructs q x hx).1
    rcases constructing_ne hx with rfl | rfl <;> simp [hu] at this
  · simp [hu] at hc

theorem handler_of_effect (h : Inv s) (he : Effect s s' a) :
    ∀ b c t, Procs.handling (s'.pc b) = some t → Procs.handling (s'.pc c) = some t → b = c := by
  intro b c t hb hc
  by_cases hba : b = a <;> by_cases hca : c = a
  · rw [hba, hca]
  · rw [he.old c hca] at hc
    exact absurd (hba ▸ hb) (h.not_handles he hca hc)
  · rw [he.old b hba] at hb
    exact absurd (hca ▸ hc) (h.not_handles he hba hb)
  · rw [he.old b hba] at hb
    rw [he.old c hca] at hc
    exact h.handler b c t hb hc

theorem fresh_of_effect (h : Inv s) (he : Effect s s' a) :
    ∀ b t, Procs.handling (s'.pc b) = some t → s'.life t = .fresh := by
  intro b t hb
  rcases eq_or_ne b a with rfl | hne
  · exact (he.handles t hb).1
  · rw [he.old b hne] at hb
    rcases he.fresh t (h.fresh b t hb) with hf | ha
    · exact hf
    · exact absurd (h.handler b a t hb ha) hne

theorem inserted_of_effect (h : Inv s) (he : Effect s s' a) :
    ∀ b q t, inserting (s'.pc b) = some (q, t) → t ∈ (s'.proc q).taskList := by
  intro b q t hb
  rcases eq_or_ne b a with rfl | hne
  · exact he.inserts q t hb
  · rw [he.old b hne] at hb
    rcases he.taskList q t (h.inserted b q t hb) with hl | ⟨hk, -⟩
    · exact hl
    · rw [h.fresh b t (handling_of_inserting hb)] at hk
      cases hk

theorem adder_of_effect (h : Inv s) (he : Effect s s' a) :
    ∀ b q, adding (s'.pc b) = some q → b ∈ s'.created q := by
  intro b q hb
  rcases eq_or_ne b a with rfl | hne
  · exact he.created q b (he.adds q hb)
  · exact he.created q b (h.adder b q (he.old b hne ▸ hb))

theorem reaped_of_effect (h : Inv s) (he : Effect s s' a) :
    ∀ b q, reaping (s'.pc b) = some q → q ∈ s'.procList := by
  intro b q hb
  rcases eq_or_ne b a with rfl | hne
  · exact he.reaps q hb
  · rw [he.old b hne] at hb
    rcases he.keeps with ho | hk
    · exact absurd (h.list.unique b a (ownsList_of_reaping hb) ho) hne
    · exact hk q (h.reaped b q hb)

theorem created_of_effect (h : Inv s) (he : Effect s s' a) :
    ∀ q, ∀ t ∈ s'.created q, t ∈ (s'.proc q).taskList ∨ s'.life t = .removed ∨
    ∃ b, pushing (s'.pc b) = some (q, t) := by
  intro q t ht
  rcases he.creates q t ht with hmem | ⟨hpush, -⟩
  · rcases h.created q t hmem with hl | hr | ⟨b, hb⟩
    · rcases he.taskList q t hl with hl' | ⟨-, hr⟩
      · exact .inl hl'
      · exact .inr (.inl hr)
    · exact .inr (.inl (he.removed t hr))
    · rcases eq_or_ne b a with rfl | hne
      · rcases he.pushes q t hb with hp | hl
        · exact .inr (.inr ⟨b, hp⟩)
        · exact .inl hl
      · exact .inr (.inr ⟨b, by rwa [he.old b hne]⟩)
  · exact .inr (.inr ⟨a, hpush⟩)

theorem owned_of_effect (h : Inv s) (he : Effect s s' a) :
    ∀ t q, s'.owner t = some q → t ∈ s'.created q := by
  intro t q ht
  rcases he.owner t q ht with ho | hmem
  · exact he.created q t (h.owned t q ho)
  · exact hmem

theorem done_of_effect (h : Inv s) (he : Effect s s' a) :
    ∀ q, (s'.proc q).state = .toBeDeleted ∨ s'.deleted q = true →
    s'.phase q = .constructed ∧ ∀ t ∈ s'.created q, s'.life t = .removed := by
  intro q hq
  have hdone : s.phase q = .constructed ∧ ∀ t ∈ s.created q, s.life t = .removed := by
    rcases he.finishes q hq with hd | ⟨i, hp, hempty, hpop⟩
    · exact h.done q hd
    · exact h.finished hp hempty hpop
  refine ⟨h.constructed he hdone.1, fun t ht => ?_⟩
  rcases he.creates q t ht with hmem | ⟨-, had | ⟨x, hx⟩⟩
  · exact he.removed t (hdone.2 t hmem)
  · have hremoved := hdone.2 a (h.adder a q had)
    rw [he.alive] at hremoved
    cases hremoved
  · have := h.phase_eq a q x hx
    rcases constructing_ne hx with rfl | rfl <;> simp [hdone.1] at this

/-- The invariant follows from what a step may do. -/
theorem of_effect (h : Inv s) (he : Effect s s' a)
    (hlist : Owned OwnsList s'.pc s'.procListLock)
    (htasks : ∀ q, Owned (fun p => tasksLock p = some q) s'.pc (s'.proc q).taskListLock) :
    Inv s' where
  list := hlist
  tasks := htasks
  builder := h.builder_of_effect he
  phase_eq := h.phase_eq_of_effect he
  building := h.building_of_effect he
  unlisted := h.unlisted_of_effect he
  listed := h.listed_of_effect he
  handler := h.handler_of_effect he
  fresh := h.fresh_of_effect he
  inserted := h.inserted_of_effect he
  adder := h.adder_of_effect he
  reaped := h.reaped_of_effect he
  created := h.created_of_effect he
  owned := h.owned_of_effect he
  done := h.done_of_effect he

end Inv

/-- A move that begins and ends nothing. -/
structure Continues (s : Procs π τ l) (a : τ) (p' : ProcPc π τ) : Prop where
  constructing : constructing p' = constructing (s.pc a)
  listing : ∀ q, listing p' = some q → listing (s.pc a) = some q
  pushing : pushing p' = pushing (s.pc a)
  inserting : inserting p' = inserting (s.pc a)
  adding : ∀ q, adding p' = some q → adding (s.pc a) = some q ∨ s.owner a = some q
  reaping : ∀ q, reaping p' = some q → reaping (s.pc a) = some q ∨ q ∈ s.procList

namespace Inv

variable [DecidableEq π] [DecidableEq τ]

omit [DecidableEq π] in
/-- A step that changes only locks, marks tasks, or kills a process that runs. -/
theorem effect_move (h : Inv s) (ha : s.life a = .running)
    (hpc : s'.pc = Function.update s.pc a p) (hc : Continues s a p)
    (hlife : s'.life = s.life) (hphase : s'.phase = s.phase) (hcreated : s'.created = s.created)
    (howner : s'.owner = s.owner) (hprocs : s'.procList = s.procList)
    (hdel : s'.deleted = s.deleted) (htl : ∀ q, (s'.proc q).taskList = (s.proc q).taskList)
    (hst : ∀ q, (s'.proc q).state = .toBeDeleted → (s.proc q).state = .toBeDeleted) :
    Effect s s' a := by
  have hnew : s'.pc a = p := by rw [hpc, Function.update_self]
  have hhand : Procs.handling p = Procs.handling (s.pc a) := by
    rw [Procs.handling, hc.pushing, hc.inserting, Procs.handling]
  constructor
  case alive => exact ha
  case old => exact fun b hb => by rw [hpc, Function.update_of_ne hb]
  case constructs =>
    intro q x hx
    rw [hnew, hc.constructing] at hx
    exact ⟨hphase ▸ h.phase_eq a q x hx, .inl ⟨x, hx⟩⟩
  case phase => exact fun q => .inl (by rw [hphase])
  case ends => exact fun q x hx => .inl ⟨x, by rw [hnew, hc.constructing, hx]⟩
  case lists => exact fun q hq => .inl (hc.listing q (hnew ▸ hq))
  case unlists => exact fun _ _ => hprocs
  case procs => exact fun q hq => .inl (hprocs ▸ hq)
  case handles =>
    intro t ht
    rw [hnew, hhand] at ht
    exact ⟨hlife ▸ h.fresh a t ht, .inl ht⟩
  case fresh => exact fun t ht => .inl (hlife ▸ ht)
  case removed => exact fun t ht => hlife ▸ ht
  case inserts =>
    intro q t ht
    rw [hnew, hc.inserting] at ht
    exact htl q ▸ h.inserted a q t ht
  case taskList => exact fun q t ht => .inl (htl q ▸ ht)
  case pushes => exact fun q t ht => .inl (by rw [hnew, hc.pushing, ht])
  case creates => exact fun q t ht => .inl (hcreated ▸ ht)
  case created => exact fun q t ht => hcreated ▸ ht
  case adds =>
    intro q hq
    rcases hc.adding q (hnew ▸ hq) with had | ho
    · exact h.adder a q had
    · exact h.owned a q ho
  case owner => exact fun t q ht => .inl (howner ▸ ht)
  case reaps =>
    intro q hq
    rw [hprocs]
    rcases hc.reaping q (hnew ▸ hq) with hr | hmem
    · exact h.reaped a q hr
    · exact hmem
  case keeps => exact .inr fun q hq => hprocs ▸ hq
  case finishes => exact fun q hq => .inl (hdel ▸ hq.imp_left (hst q))

theorem effect_addPush {first : Bool} (h : Inv s) (ha : s.life a = .running)
    (hp : s.pc a = .addPush q first t) :
    Effect s ((if first then (s.appendTask q t).setPhase q .populated else s.appendTask q t).goto a
      (.addInsert q first t)) a := by
  have hfresh : s.life t = .fresh := h.fresh a t (by simp [hp])
  cases first <;> constructor <;> simp +contextual [hp, ha, hfresh, Function.update_apply] <;> grind

theorem effect_forkPush (h : Inv s) (ha : s.life a = .running) (hp : s.pc a = .forkPush q t) :
    Effect s (((s.appendTask q t).setPhase q .populated).goto a (.forkInsert q t)) a := by
  have hfresh : s.life t = .fresh := h.fresh a t (by simp [hp])
  constructor <;> simp +contextual [hp, ha, hfresh, Function.update_apply] <;> grind

omit [DecidableEq π] in
theorem effect_addInsert {first : Bool} (h : Inv s) (ha : s.life a = .running)
    (hp : s.pc a = .addInsert q first t) :
    Effect s ((s.setLife t .running).goto a (.addUnlock q first)) a := by
  have hphase := h.phase_eq a
  have hfresh : s.life t = .fresh := h.fresh a t (by simp [hp])
  cases first <;> simp [hp] at hphase <;> constructor <;>
    simp +contextual [hp, ha, hphase, Function.update_apply] <;> grind

theorem effect_forkInsert (h : Inv s) (ha : s.life a = .running) (hp : s.pc a = .forkInsert q t) :
    Effect s (((s.setLife t .running).setPhase q .constructed).goto a .kernel) a := by
  have hfresh : s.life t = .fresh := h.fresh a t (by simp [hp])
  constructor <;> simp +contextual [hp, ha, Function.update_apply] <;> grind

omit [DecidableEq π] in
theorem effect_listPush {forked : Bool} (h : Inv s) (ha : s.life a = .running)
    (hp : s.pc a = .listPush q forked) :
    Effect s ({ s with procList := s.procList ++ [q] }.goto a (.listUnlock q forked)) a := by
  have hphase : s.phase q = if forked then .started else .populated :=
    h.phase_eq a q _ (by simp [hp])
  constructor <;> simp +contextual [hp, ha, hphase]
  grind

theorem effect_listUnlock (ha : s.life a = .running)
    (hp : s.pc a = .listUnlock q false) :
    Effect s (({ s with procListLock := false }.setPhase q .constructed).goto a .kernel) a := by
  constructor <;> simp +contextual [hp, ha, Function.update_apply]
  grind

omit [DecidableEq π] in
theorem effect_kill (h : Inv s) (ha : s.life a = .running) : Effect s (s.setLife a .killed) a := by
  have hphase := h.phase_eq a
  have hfresh := h.fresh a
  have hinserted := h.inserted a
  have hadder := h.adder a
  have hreaped := h.reaped a
  constructor <;> simp +contextual only [setLife, ha] <;> grind

theorem effect_remove {i j : ℕ} (h : Inv s) (ha : s.life a = .running)
    (hp : s.pc a = .reapTasks q i j) (ht : (s.proc q).taskList[j]? = some t)
    (hk : s.life t = .killed) (hpr : p = .reapSize q i ∨ ∃ k, p = .reapTasks q i k) :
    Effect s (((s.setProc q { s.proc q with taskList := (s.proc q).taskList.eraseIdx j }).setLife t
      .removed).goto a p) a := by
  have hreaped : q ∈ s.procList := h.reaped a q (by simp [hp])
  have hmem : ∀ u ∈ (s.proc q).taskList, u = t ∨ u ∈ (s.proc q).taskList.eraseIdx j := by
    intro u hu
    rw [List.mem_eraseIdx_iff_getElem?]
    obtain ⟨k, hk⟩ := List.mem_iff_getElem?.mp hu
    grind
  obtain rfl | ⟨k, rfl⟩ := hpr
  all_goals
    constructor <;> simp +contextual [hp, ha, hreaped, Function.update_apply] <;> grind

theorem effect_size {i : ℕ} (h : Inv s) (ha : s.life a = .running) (hp : s.pc a = .reapSize q i)
    (hpop : s.phase q ≠ .started) :
    Effect s ((if (s.proc q).taskList = [] then s.setProc q { s.proc q with state := .toBeDeleted }
      else s).goto a (.reapUnlock q i)) a := by
  have hreaped : q ∈ s.procList := h.reaped a q (by simp [hp])
  split_ifs with hempty
  · constructor <;> simp +contextual [hp, ha, hreaped, Function.update_apply] <;> grind
  · constructor <;> simp +contextual [hp, ha, hreaped]

theorem effect_delete {i : ℕ} (ha : s.life a = .running) (hp : s.pc a = .reapTest q i)
    (hq : (s.proc q).state = .toBeDeleted) (hpr : ∃ i, p = .reapDone ∨ p = .reapProc i) :
    Effect s ({ s with
      deleted := Function.update s.deleted q true
      procList := s.procList.eraseIdx i }.goto a p) a := by
  obtain ⟨j, rfl | rfl⟩ := hpr
  all_goals
    constructor <;> simp +contextual [hp, ha, Function.update_apply] <;>
      grind [List.mem_of_mem_eraseIdx]

theorem effect_create (h : Inv s) (ha : s.life a = .running) (hu : s.life t = .unborn)
    (hp : (∃ first, s.pc a = .addTask q first ∧ p = .addPush q first t) ∨
      s.pc a = .forkTask q ∧ p = .forkPush q t) :
    Effect s ({ s.setLife t .fresh with
      owner := Function.update s.owner t (some q)
      created := Function.update s.created q (s.created q ++ [t]) }.goto a p) a := by
  have hphase := h.phase_eq a
  have hadder := h.adder a
  obtain ⟨first, hp, rfl⟩ | ⟨hp, rfl⟩ := hp
  · rw [hp] at hphase hadder
    cases first <;> constructor <;> simp_all +contextual [Function.update_apply] <;> grind
  · rw [hp] at hphase hadder
    constructor <;> simp_all +contextual [Function.update_apply] <;> grind

theorem effect_start (ha : s.life a = .running) (hp : s.pc a = .kernel) (hq : s.phase q = .unborn)
    (hpr : p = .addLock q true ∨ p = .listLock q true) :
    Effect s ((s.setPhase q .started).goto a p) a := by
  obtain rfl | rfl := hpr
  all_goals
    constructor <;> simp +contextual [hp, ha, hq, Function.update_apply]
    grind

omit [DecidableEq π] in
theorem tasks_stay (h : Inv s) (hpc : s'.pc = Function.update s.pc a p)
    (hl : ∀ r, (s'.proc r).taskListLock = (s.proc r).taskListLock)
    (hp : Procs.tasksLock p = Procs.tasksLock (s.pc a)) (r : π) :
    Owned (fun p => Procs.tasksLock p = some r) s'.pc (s'.proc r).taskListLock := by
  rw [hpc, hl]
  exact (h.tasks r).stay (by rw [hp])

omit [DecidableEq π] in
theorem goto (h : Inv s) (ha : s.life a = .running) (hc : Continues s a p)
    (hl : OwnsList p ↔ OwnsList (s.pc a)) (ht : Procs.tasksLock p = Procs.tasksLock (s.pc a)) :
    Inv (s.goto a p) :=
  h.of_effect (h.effect_move ha rfl hc rfl rfl rfl rfl rfl rfl (fun _ => rfl) (fun _ => id))
    (h.list.stay hl) (h.tasks_stay rfl (fun _ => rfl) ht)

theorem lockTasks (h : Inv s) (ha : s.life a = .running)
    (hc : Continues s a p) (hfree : (s.proc q).taskListLock = false)
    (hl : OwnsList p ↔ OwnsList (s.pc a)) (ht : Procs.tasksLock p = some q)
    (hn : Procs.tasksLock (s.pc a) = none) :
    Inv ((s.setTaskListLock q true).goto a p) := by
  have he : Effect s ((s.setTaskListLock q true).goto a p) a := by
    refine h.effect_move ha rfl hc rfl rfl rfl rfl rfl rfl ?_ ?_
    all_goals
      intro r
      rcases eq_or_ne r q with rfl | hne <;> simp [*]
  apply h.of_effect he (h.list.stay hl)
  intro r
  have hr := h.tasks r
  rcases eq_or_ne r q with rfl | hne
  · rw [hfree] at hr
    simpa using hr.acquire (t := a) ht
  · simpa [hne] using hr.stay (t := a) (p := p)
      (by simp only [ht, hn, Option.some.injEq, reduceCtorEq, hne.symm])

theorem unlockTasks (h : Inv s) (ha : s.life a = .running)
    (hc : Continues s a p) (hl : OwnsList p ↔ OwnsList (s.pc a))
    (ht : Procs.tasksLock (s.pc a) = some q) (hn : Procs.tasksLock p = none) :
    Inv ((s.setTaskListLock q false).goto a p) := by
  have he : Effect s ((s.setTaskListLock q false).goto a p) a := by
    refine h.effect_move ha rfl hc rfl rfl rfl rfl rfl rfl ?_ ?_
    all_goals
      intro r
      rcases eq_or_ne r q with rfl | hne <;> simp [*]
  apply h.of_effect he (h.list.stay hl)
  intro r
  have hr := h.tasks r
  rcases eq_or_ne r q with rfl | hne
  · simpa using hr.release (t := a) (p := p) ht (by simp only [hn, reduceCtorEq, not_false_eq_true])
  · simpa [hne] using hr.stay (t := a) (p := p)
      (by simp only [ht, hn, Option.some.injEq, reduceCtorEq, hne.symm])

omit [DecidableEq π] in
theorem lockList (h : Inv s) (ha : s.life a = .running)
    (hc : Continues s a p) (hfree : s.procListLock = false) (hl : OwnsList p)
    (ht : Procs.tasksLock p = Procs.tasksLock (s.pc a)) :
    Inv ({ s with procListLock := true }.goto a p) := by
  have hlist := h.list
  rw [hfree] at hlist
  exact h.of_effect
    (h.effect_move ha rfl hc rfl rfl rfl rfl rfl rfl (fun _ => rfl) (fun _ => id))
    (hlist.acquire hl) (h.tasks_stay rfl (fun _ => rfl) ht)

omit [DecidableEq π] in
theorem unlockList (h : Inv s) (ha : s.life a = .running)
    (hc : Continues s a p) (hl : OwnsList (s.pc a)) (hn : ¬ OwnsList p)
    (ht : Procs.tasksLock p = Procs.tasksLock (s.pc a)) :
    Inv ({ s with procListLock := false }.goto a p) :=
  h.of_effect (h.effect_move ha rfl hc rfl rfl rfl rfl rfl rfl (fun _ => rfl) (fun _ => id))
    (h.list.release hl hn) (h.tasks_stay rfl (fun _ => rfl) ht)

omit [DecidableEq π] in
theorem kill (h : Inv s) (ha : s.life a = .running) :
    Inv (s.setLife a .killed) :=
  h.of_effect (h.effect_kill ha) h.list h.tasks

theorem exec_addLock {first : Bool} (h : Inv s) (ha : s.life a = .running)
    (hp : s.pc a = .addLock q first) (hs : s.exec a = some s') : Inv s' := by
  simp only [Procs.exec, hp] at hs
  rw [Option.ite_none_right_eq_some, Option.map_eq_some_iff] at hs
  obtain ⟨-, s₁, hs₁, rfl⟩ := hs
  obtain ⟨⟨-, hfree⟩, rfl⟩ := lockTasks_eq_some.mp hs₁
  refine h.lockTasks ha ?_ hfree (by simp [hp]) rfl (by simp [hp])
  cases first <;> constructor <;> simp [hp]

theorem exec_addPush {first : Bool} (h : Inv s) (ha : s.life a = .running)
    (hp : s.pc a = .addPush q first t) (hs : s.exec a = some s') : Inv s' := by
  simp only [Procs.exec, hp] at hs
  obtain ⟨s₁, hs₁, rfl⟩ := Option.map_eq_some_iff.mp hs
  obtain ⟨-, rfl⟩ := pushTask_eq_some.mp hs₁
  have he := h.effect_addPush ha hp
  cases first
  all_goals
    refine h.of_effect he (h.list.stay (by simp [hp])) (h.tasks_stay rfl ?_ (by simp [hp]))
    intro r
    rcases eq_or_ne r q with rfl | hne <;> simp [*]

theorem exec_addInsert {first : Bool} (h : Inv s) (ha : s.life a = .running)
    (hp : s.pc a = .addInsert q first t) (hs : s.exec a = some s') : Inv s' := by
  simp only [Procs.exec, hp, Option.some.injEq] at hs
  subst hs
  exact h.of_effect (h.effect_addInsert ha hp) (h.list.stay (by simp [hp]))
    (h.tasks_stay rfl (fun _ => rfl) (by simp [hp]))

theorem exec_addUnlock {first : Bool} (h : Inv s) (ha : s.life a = .running)
    (hp : s.pc a = .addUnlock q first) (hs : s.exec a = some s') : Inv s' := by
  simp only [Procs.exec, hp] at hs
  obtain ⟨s₁, hs₁, rfl⟩ := Option.map_eq_some_iff.mp hs
  obtain ⟨-, rfl⟩ := unlockTasks_eq_some.mp hs₁
  cases first
  all_goals
    refine h.unlockTasks ha ?_ (by simp [hp]) (by simp [hp]) rfl
    constructor <;> simp [hp]

theorem exec_listLock {forked : Bool} (h : Inv s) (ha : s.life a = .running)
    (hp : s.pc a = .listLock q forked) (hs : s.exec a = some s') : Inv s' := by
  simp only [Procs.exec, hp] at hs
  rw [Option.ite_none_left_eq_some, Option.some.injEq] at hs
  obtain ⟨hfree, rfl⟩ := hs
  refine h.lockList ha ?_ (eq_false_of_ne_true hfree) trivial (by simp [hp])
  constructor <;> simp [hp]

theorem exec_listPush {forked : Bool} (h : Inv s) (ha : s.life a = .running)
    (hp : s.pc a = .listPush q forked) (hs : s.exec a = some s') : Inv s' := by
  simp only [Procs.exec, hp, Option.some.injEq] at hs
  subst hs
  exact h.of_effect (h.effect_listPush ha hp) (h.list.stay (by simp [hp]))
    (h.tasks_stay rfl (fun _ => rfl) (by simp [hp]))

theorem exec_listUnlock {forked : Bool} (h : Inv s) (ha : s.life a = .running)
    (hp : s.pc a = .listUnlock q forked) (hs : s.exec a = some s') : Inv s' := by
  simp only [Procs.exec, hp, Option.some.injEq] at hs
  subst hs
  cases forked
  · exact h.of_effect (effect_listUnlock ha hp) (h.list.release (by simp [hp]) (by simp))
      (h.tasks_stay rfl (fun _ => rfl) (by simp [hp]))
  · refine h.unlockList ha ?_ (by simp [hp]) (by simp) (by simp [hp])
    constructor <;> simp [hp]

theorem exec_forkPush (h : Inv s) (ha : s.life a = .running) (hp : s.pc a = .forkPush q t)
    (hs : s.exec a = some s') : Inv s' := by
  simp only [Procs.exec, hp] at hs
  obtain ⟨s₁, hs₁, rfl⟩ := Option.map_eq_some_iff.mp hs
  obtain ⟨-, rfl⟩ := pushTask_eq_some.mp hs₁
  refine h.of_effect (h.effect_forkPush ha hp) (h.list.stay (by simp [hp]))
    (h.tasks_stay rfl ?_ (by simp [hp]))
  intro r
  rcases eq_or_ne r q with rfl | hne <;> simp [*]

theorem exec_forkInsert (h : Inv s) (ha : s.life a = .running) (hp : s.pc a = .forkInsert q t)
    (hs : s.exec a = some s') : Inv s' := by
  simp only [Procs.exec, hp, Option.some.injEq] at hs
  subst hs
  exact h.of_effect (h.effect_forkInsert ha hp) (h.list.stay (by simp [hp]))
    (h.tasks_stay rfl (fun _ => rfl) (by simp [hp]))

theorem exec_exitLock (h : Inv s) (ha : s.life a = .running) (hp : s.pc a = .exitLock q)
    (hs : s.exec a = some s') : Inv s' := by
  simp only [Procs.exec, hp] at hs
  obtain ⟨s₁, hs₁, rfl⟩ := Option.map_eq_some_iff.mp hs
  obtain ⟨⟨-, hfree⟩, rfl⟩ := lockTasks_eq_some.mp hs₁
  refine h.lockTasks ha ?_ hfree (by simp [hp]) rfl (by simp [hp])
  constructor <;> simp [hp]

theorem exec_exitTest (h : Inv s) (ha : s.life a = .running) (hp : s.pc a = .exitTest q)
    (hs : s.exec a = some s') : Inv s' := by
  simp only [Procs.exec, hp, Option.some.injEq] at hs
  subst hs
  split_ifs
  · refine h.of_effect (h.effect_move ha rfl ?_ rfl rfl rfl rfl rfl rfl ?_ ?_)
      (h.list.stay (by simp [hp])) (h.tasks_stay rfl ?_ (by simp [hp]))
    · constructor <;> simp [hp]
    all_goals
      intro r
      rcases eq_or_ne r q with rfl | hne <;> simp [*]
  · refine h.goto ha ?_ (by simp [hp]) (by simp [hp])
    constructor <;> simp [hp]

theorem exec_exitKill {i : ℕ} (h : Inv s) (ha : s.life a = .running) (hp : s.pc a = .exitKill q i)
    (hs : s.exec a = some s') : Inv s' := by
  simp only [Procs.exec, hp] at hs
  split at hs
  · rw [Option.some.injEq] at hs
    subst hs
    refine h.goto ha ?_ (by simp [hp]) (by simp [hp])
    constructor <;> simp [hp]
  · rw [Option.some.injEq] at hs
    subst hs
    split_ifs
    all_goals
      refine h.of_effect (h.effect_move ha rfl ?_ rfl rfl rfl rfl rfl rfl (fun _ => rfl)
        (fun _ => id)) (h.list.stay (by simp [hp]))
        (h.tasks_stay rfl (fun _ => rfl) (by simp [hp]))
      constructor <;> simp [hp]

theorem exec_exitUnlock (h : Inv s) (ha : s.life a = .running) (hp : s.pc a = .exitUnlock q)
    (hs : s.exec a = some s') : Inv s' := by
  simp only [Procs.exec, hp] at hs
  obtain ⟨s₁, hs₁, rfl⟩ := Option.map_eq_some_iff.mp hs
  obtain ⟨-, rfl⟩ := unlockTasks_eq_some.mp hs₁
  split_ifs
  all_goals
    refine h.unlockTasks ha ?_ (by simp [hp]) (by simp [hp]) rfl
    constructor <;> simp [hp]

theorem exec_exitSelf (h : Inv s) (ha : s.life a = .running) (hp : s.pc a = .exitSelf)
    (hs : s.exec a = some s') : Inv s' := by
  simp only [Procs.exec, hp, Option.some.injEq] at hs
  subst hs
  exact h.kill ha

theorem exec_reapLock (h : Inv s) (ha : s.life a = .running) (hp : s.pc a = .reapLock)
    (hs : s.exec a = some s') : Inv s' := by
  simp only [Procs.exec, hp] at hs
  rw [Option.ite_none_left_eq_some, Option.some.injEq] at hs
  obtain ⟨hfree, rfl⟩ := hs
  refine h.lockList ha ?_ (eq_false_of_ne_true hfree) trivial (by simp [hp])
  constructor <;> simp [hp]

theorem exec_reapProc {i : ℕ} (h : Inv s) (ha : s.life a = .running) (hp : s.pc a = .reapProc i)
    (hs : s.exec a = some s') : Inv s' := by
  simp only [Procs.exec, hp] at hs
  split at hs
  · rw [Option.some.injEq] at hs
    subst hs
    refine h.goto ha ?_ (by simp [hp]) (by simp [hp])
    constructor <;> simp [hp]
  case h_2 q hq =>
    obtain ⟨s₁, hs₁, rfl⟩ := Option.map_eq_some_iff.mp hs
    obtain ⟨⟨-, hfree⟩, rfl⟩ := lockTasks_eq_some.mp hs₁
    refine h.lockTasks ha ?_ hfree (by simp [hp]) rfl (by simp [hp])
    constructor <;> simp [hp, List.mem_of_getElem? hq]

theorem exec_reapTasks {i j : ℕ} (h : Inv s) (ha : s.life a = .running)
    (hp : s.pc a = .reapTasks q i j) (hs : s.exec a = some s') : Inv s' := by
  simp only [Procs.exec, hp] at hs
  split at hs
  · rw [Option.some.injEq] at hs
    subst hs
    refine h.goto ha ?_ (by simp [hp]) (by simp [hp])
    constructor <;> simp [hp]
  case h_2 t ht =>
    split_ifs at hs with hk
    · rw [Option.some.injEq] at hs
      subst hs
      cases afterRemove ((s.proc q).taskList.eraseIdx j) j
      all_goals
        refine h.of_effect (h.effect_remove ha hp ht hk (by simp))
          (h.list.stay (by simp [hp])) (h.tasks_stay rfl ?_ (by simp [hp]))
        intro r
        rcases eq_or_ne r q with rfl | hne <;> simp [*]
    · rw [Option.some.injEq] at hs
      subst hs
      refine h.goto ha ?_ (by simp [hp]) (by simp [hp])
      constructor <;> simp [hp]

theorem exec_reapSize {i : ℕ} (h : Inv s) (ha : s.life a = .running) (hp : s.pc a = .reapSize q i)
    (hok : s.phase q ≠ .started) (hs : s.exec a = some s') : Inv s' := by
  simp only [Procs.exec, hp, Option.some.injEq] at hs
  subst hs
  have he := h.effect_size ha hp hok
  split_ifs at he ⊢
  all_goals
    refine h.of_effect he (h.list.stay (by simp [hp])) (h.tasks_stay rfl ?_ (by simp [hp]))
    intro r
    rcases eq_or_ne r q with rfl | hne <;> simp [*]

theorem exec_reapUnlock {i : ℕ} (h : Inv s) (ha : s.life a = .running)
    (hp : s.pc a = .reapUnlock q i) (hs : s.exec a = some s') : Inv s' := by
  simp only [Procs.exec, hp] at hs
  obtain ⟨s₁, hs₁, rfl⟩ := Option.map_eq_some_iff.mp hs
  obtain ⟨-, rfl⟩ := unlockTasks_eq_some.mp hs₁
  refine h.unlockTasks ha ?_ (by simp [hp]) (by simp [hp]) rfl
  constructor <;> simp [hp]

theorem exec_reapTest {i : ℕ} (h : Inv s) (ha : s.life a = .running) (hp : s.pc a = .reapTest q i)
    (hs : s.exec a = some s') : Inv s' := by
  simp only [Procs.exec, hp] at hs
  split_ifs at hs with hq
  · rw [Option.some.injEq] at hs
    subst hs
    cases afterRemove (s.procList.eraseIdx i) i
    all_goals
      exact h.of_effect (effect_delete ha hp hq (by simp)) (h.list.stay (by simp [hp]))
        (h.tasks_stay rfl (fun _ => rfl) (by simp [hp]))
  · rw [Option.some.injEq] at hs
    subst hs
    refine h.goto ha ?_ (by simp [hp]) (by simp [hp])
    constructor <;> simp [hp]

theorem exec_reapDone (h : Inv s) (ha : s.life a = .running) (hp : s.pc a = .reapDone)
    (hs : s.exec a = some s') : Inv s' := by
  simp only [Procs.exec, hp, Option.some.injEq] at hs
  subst hs
  refine h.unlockList ha ?_ (by simp [hp]) (by simp) (by simp [hp])
  constructor <;> simp [hp]

theorem exec (h : Inv s) (ha : s.life a = .running)
    (hok : ∀ q i, s.pc a = .reapSize q i → s.phase q ≠ .started) (hs : s.exec a = some s') :
    Inv s' := by
  cases hp : s.pc a with
  | user | kernel | addTask | forkTask => simp [Procs.exec, hp] at hs
  | addLock => exact h.exec_addLock ha hp hs
  | addPush => exact h.exec_addPush ha hp hs
  | addInsert => exact h.exec_addInsert ha hp hs
  | addUnlock => exact h.exec_addUnlock ha hp hs
  | listLock => exact h.exec_listLock ha hp hs
  | listPush => exact h.exec_listPush ha hp hs
  | listUnlock => exact h.exec_listUnlock ha hp hs
  | forkPush => exact h.exec_forkPush ha hp hs
  | forkInsert => exact h.exec_forkInsert ha hp hs
  | exitLock => exact h.exec_exitLock ha hp hs
  | exitTest => exact h.exec_exitTest ha hp hs
  | exitKill => exact h.exec_exitKill ha hp hs
  | exitUnlock => exact h.exec_exitUnlock ha hp hs
  | exitSelf => exact h.exec_exitSelf ha hp hs
  | reapLock => exact h.exec_reapLock ha hp hs
  | reapProc => exact h.exec_reapProc ha hp hs
  | reapTasks => exact h.exec_reapTasks ha hp hs
  | reapSize q i => exact h.exec_reapSize ha hp (hok q i hp) hs
  | reapUnlock => exact h.exec_reapUnlock ha hp hs
  | reapTest => exact h.exec_reapTest ha hp hs
  | reapDone => exact h.exec_reapDone ha hp hs

end Inv

variable [DecidableEq π] [DecidableEq τ] [DecidableEq l]

/-- The process whose tasks the task is about to count. -/
def counting : ProcPc π τ → Option π
  | .reapSize q _ => some q
  | _ => none

/-- The step does not count the tasks of a process that `fork` has put on the list of processes
and to which it has not given a task. -/
def Populated (s : Procs π τ l) : Event π τ l → Prop
  | .exec a => ∀ q ∈ counting (s.pc a), s.phase q ≠ .started
  | _ => True

instance (s : Procs π τ l) : DecidablePred s.Populated
  | .exec a => inferInstanceAs (Decidable (∀ q ∈ counting (s.pc a), s.phase q ≠ .started))
  | .enter _ | .leave _ | .acquire _ _ | .release _ _ | .newProcess _ _ | .fork _ _ =>
    isTrue trivial
  | .addTask _ | .exit _ _ | .reap _ | .create _ _ | .threadExit _ | .die _ => isTrue trivial

theorem act_inv {i : Event π τ l} (h : Inv s) (ha : s.life i.actor = .running)
    (hok : s.Populated i) (hs : s.act i = some s') : Inv s' := by
  cases i with
  | enter a =>
    simp only [act, Option.ite_none_right_eq_some, Option.some.injEq] at hs
    obtain ⟨hp, rfl⟩ := hs
    refine h.goto ha ?_ (by simp [hp]) (by simp [hp])
    constructor <;> simp [hp]
  | leave a =>
    simp only [act, Option.ite_none_right_eq_some, Option.some.injEq] at hs
    obtain ⟨⟨hp, -⟩, rfl⟩ := hs
    refine h.goto ha ?_ (by simp [hp]) (by simp [hp])
    constructor <;> simp [hp]
  | acquire a x =>
    simp only [act, Option.ite_none_right_eq_some, Option.some.injEq] at hs
    obtain ⟨-, rfl⟩ := hs
    exact { h with }
  | release a x =>
    simp only [act, Option.ite_none_right_eq_some, Option.some.injEq] at hs
    obtain ⟨-, rfl⟩ := hs
    exact { h with }
  | newProcess a q =>
    simp only [act, Option.ite_none_right_eq_some, Option.some.injEq] at hs
    obtain ⟨⟨hp, hq⟩, rfl⟩ := hs
    exact h.of_effect (Inv.effect_start ha hp hq (.inl rfl))
      (h.list.stay (by simp [hp])) (h.tasks_stay rfl (fun _ => rfl) (by simp [hp]))
  | fork a q =>
    simp only [act, Option.ite_none_right_eq_some, Option.some.injEq] at hs
    obtain ⟨⟨hp, -, hq⟩, rfl⟩ := hs
    exact h.of_effect (Inv.effect_start ha hp hq (.inr rfl))
      (h.list.stay (by simp [hp])) (h.tasks_stay rfl (fun _ => rfl) (by simp [hp]))
  | addTask a =>
    simp only [act, Option.ite_none_right_eq_some, Option.map_eq_some_iff] at hs
    obtain ⟨hp, q, hq, rfl⟩ := hs
    refine h.goto ha ?_ (by simp [hp]) (by simp [hp])
    constructor <;> simp [hp, hq]
  | exit a q =>
    simp only [act, Option.ite_none_right_eq_some, Option.some.injEq] at hs
    obtain ⟨⟨hp | hp, -⟩, rfl⟩ := hs
    all_goals
      refine h.goto ha ?_ (by simp [hp]) (by simp [hp])
      constructor <;> simp [hp]
  | reap a =>
    simp only [act, Option.ite_none_right_eq_some, Option.some.injEq] at hs
    obtain ⟨hp, rfl⟩ := hs
    refine h.goto ha ?_ (by simp [hp]) (by simp [hp])
    constructor <;> simp [hp]
  | exec a =>
    apply h.exec ha _ hs
    intro q i hp
    apply hok q
    rw [Event.actor] at hp
    simp [hp, counting]
  | create a t =>
    simp only [act] at hs
    split at hs
    case h_1 q first hp =>
      simp only [createTask, Option.ite_none_right_eq_some, Option.some.injEq] at hs
      obtain ⟨hu, rfl⟩ := hs
      exact h.of_effect (h.effect_create ha hu (.inl ⟨first, hp, rfl⟩))
        (h.list.stay (by simp [hp])) (h.tasks_stay rfl (fun _ => rfl) (by simp [hp]))
    case h_2 q hp =>
      simp only [createTask, Option.ite_none_right_eq_some, Option.some.injEq] at hs
      obtain ⟨hu, rfl⟩ := hs
      exact h.of_effect (h.effect_create ha hu (.inr ⟨hp, rfl⟩))
        (h.list.stay (by simp [hp])) (h.tasks_stay rfl (fun _ => rfl) (by simp [hp]))
    case h_3 => cases hs
  | threadExit a =>
    simp only [act, Option.ite_none_right_eq_some, Option.some.injEq] at hs
    obtain ⟨⟨hp, -⟩, rfl⟩ := hs
    exact h.kill ha
  | die a => cases hs

theorem step_inv {i : Event π τ l} (h : Inv s) (hok : s.Populated i) (hs : s.step i = some s') :
    Inv s' := by
  by_cases hi : ∃ a, i = .die a
  · obtain ⟨a, rfl⟩ := hi
    simp only [step, Option.ite_none_right_eq_some, Option.some.injEq] at hs
    obtain ⟨⟨ha, -⟩, rfl⟩ := hs
    exact h.kill ha
  · cases i
    case die a => exact absurd ⟨a, rfl⟩ hi
    all_goals
      simp only [step, Option.ite_none_right_eq_some] at hs
      exact act_inv h hs.1.1 hok hs.2

omit [DecidableEq π] [DecidableEq l] in
theorem inv_init (tasks : List τ) : Inv (init tasks : Procs π τ l) := by
  have hpc : ∀ a, (init tasks : Procs π τ l).pc a = .user ∨
      (init tasks : Procs π τ l).pc a = .kernel := by
    intro a
    simp only [init]
    split_ifs <;> simp
  constructor
  case list =>
    constructor
    · simp [init]
    all_goals
      intro a
      rcases hpc a with h | h <;> simp [h]
  case tasks =>
    intro q
    constructor
    · simp [init]
    all_goals
      intro a
      rcases hpc a with h | h <;> simp [h]
  case building => simp [init]
  case listed => simp [init]
  case created => simp [init]
  case owned => simp [init]
  case done => simp [init]
  all_goals
    intro a
    rcases hpc a with h | h <;> simp [h]

/-- The process is constructed, and all its tasks were killed and removed. -/
def Finished (s : Procs π τ l) (q : π) : Prop :=
  s.phase q = .constructed ∧ ∀ t ∈ s.created q, s.life t = .removed

/-- In a run in which no process is counted too early, a process is marked for deletion and deleted
only when it is finished. -/
theorem finished_of_populated (tasks : List τ)
    (h : Run.Reachable step Populated (init tasks : Procs π τ l) s)
    (hq : (s.proc q).state = .toBeDeleted ∨ s.deleted q = true) : s.Finished q := by
  have hinv : Inv s := h.invariant (inv_init tasks) fun _ _ _ hs hok hstep => step_inv hs hok hstep
  exact hinv.done q hq

theorem neZero_two : NeZero 2 := ⟨by decide⟩

theorem neZero_three : NeZero 3 := ⟨by decide⟩

attribute [local instance] neZero_two neZero_three

/-- A process with one task is constructed by the kernel task 0. -/
def bootCalls : List (Event (Fin 2) (Fin 3) Unit) :=
  [Event.newProcess 0 0, .exec 0, .create 0 1] ++ List.replicate 6 (Event.exec 0)

/-- The task exits, and the reaper deletes the process. -/
def deleteCalls : List (Event (Fin 2) (Fin 3) Unit) :=
  bootCalls ++ [Event.threadExit 1, .reap 0] ++ List.replicate 7 (Event.exec 0)

theorem finished_of_populated_deleteCalls :
    ∃ s, Run.guardedRun step Populated (init [0]) deleteCalls = some s ∧ s.deleted 0 = true ∧
      s.created 0 = [1] ∧ s.Finished 0 := by
  have hrun : (Run.guardedRun step Populated (init [0]) deleteCalls).map
      (fun s => (s.deleted 0, s.created 0)) = some (true, [1]) := by decide_cbv
  obtain ⟨s, hs, heq⟩ := Option.map_eq_some_iff.mp hrun
  rw [Prod.mk.injEq] at heq
  exact ⟨s, hs, heq.1, heq.2,
    finished_of_populated [0] (Run.reachable_of_guardedRun hs) (.inr heq.1)⟩

/-- The task forks, and the reaper looks at the new process before it has a task. -/
def earlyCalls : List (Event (Fin 2) (Fin 3) Unit) :=
  bootCalls ++ [Event.enter 1, .fork 1 1, .exec 1, .exec 1, .exec 1, .reap 0] ++
    List.replicate 10 (Event.exec 0)

theorem not_forall_finished : ¬ ∀ (s : Procs (Fin 2) (Fin 3) Unit) (q : Fin 2),
    Run.Reachable step (fun _ _ => True) (init [0]) s →
      (s.proc q).state = .toBeDeleted ∨ s.deleted q = true → s.Finished q := by
  have hrun : (earlyCalls.foldlM step (init [0])).map
      (fun s => ((s.proc 1).state, s.phase 1)) = some (.toBeDeleted, .started) := by decide_cbv
  obtain ⟨s, hs, heq⟩ := Option.map_eq_some_iff.mp hrun
  rw [Prod.mk.injEq] at heq
  intro hall
  have hfinished := (hall s 1 (Run.reachable_of_foldlM hs) (.inl heq.1)).1
  rw [heq.2] at hfinished
  cases hfinished

end Procs

end Koerix
