import Mathlib
import Koerix.Proc.Switch

/-! # CR3 and the current task

As long as the reaper counts the tasks of no process that `fork` is still
constructing, CR3 holds the PML4 of the address space of the current task, every
task is resumed with the context that was stored for it last, and the address
spaces that are deleted are not active.
-/

namespace Koerix

namespace Switch

open Procs

variable {π τ l α φ κ : Type} [DecidableEq π] [DecidableEq τ] [DecidableEq l] [DecidableEq α]

/-- Every switch resumes a task with the pointer that was stored for it last. -/
def ResumesStored (log : List (ContextEntry τ κ)) : Prop :=
  ∀ newer older t ctx, log = newer ++ .resumed t ctx :: older → lastStored t older = some ctx

/-- The address spaces belong to the processes that are not deleted, the tasks refer to them, and
CR3 is that of the current task. -/
structure Inv (s : Switch π τ l α φ κ) : Prop where
  procs : Procs.Inv s.procs
  distinct : ∀ x y, s.live x = true → s.live y = true → s.pml4 x = s.pml4 y → x = y
  kernel : s.live s.kernel = true
  space : ∀ q, s.procs.phase q ≠ .unborn → s.procs.deleted q = false →
    s.live (s.procSpace q) = true ∧ s.procSpace q ≠ s.kernel
  apart : ∀ q r, s.procs.phase q ≠ .unborn → s.procs.deleted q = false →
    s.procs.phase r ≠ .unborn → s.procs.deleted r = false → s.procSpace q = s.procSpace r → q = r
  task : ∀ t, s.procs.life t ≠ .unborn →
    s.taskSpace t = (s.procs.owner t).elim s.kernel s.procSpace
  created : ∀ q, ∀ t ∈ s.procs.created q, s.procs.phase q ≠ .unborn
  current : ∀ t, s.currentTask = some t → s.procs.life t = .running ∨ s.procs.life t = .killed
  active : ∀ t, s.currentTask = some t → s.cr3 = s.pml4 (s.taskSpace t)
  idle : s.procs.life s.idle ≠ .unborn ∧ s.procs.owner s.idle = none
  reaper : ∀ a, inReaper (s.procs.pc a) = true → a = s.idle
  nodup : s.procs.procList.Nodup
  index : ∀ a q i, reapIndex (s.procs.pc a) = some (q, i) → s.procs.procList[i]? = some q
  gone : ∀ q, s.procs.deleted q = true → q ∉ s.procs.procList
  stored : ∀ t, s.procs.life t ≠ .unborn → lastStored t s.log = some (s.context t)
  resumed : ResumesStored s.log

section Log

variable {log : List (ContextEntry τ κ)} {t : τ} {ctx : κ}

theorem ResumesStored.stored (h : ResumesStored log) (t : τ) (ctx : κ) :
    ResumesStored (.stored t ctx :: log) := by
  intro newer older u c heq
  cases newer with
  | nil => cases heq
  | cons x newer => exact h newer older u c (List.cons.inj heq).2

theorem ResumesStored.resumed (h : ResumesStored log) (ht : lastStored t log = some ctx) :
    ResumesStored (.resumed t ctx :: log) := by
  intro newer older u c heq
  cases newer with
  | nil =>
    cases heq
    exact ht
  | cons x newer => exact h newer older u c (List.cons.inj heq).2

theorem resumesStored_map (tasks : List τ) (context : τ → κ) :
    ResumesStored (tasks.map fun t => .stored t (context t)) := by
  induction tasks with
  | nil => rintro (- | ⟨x, newer⟩) older u c heq <;> cases heq
  | cons t tasks ih => exact ih.stored t (context t)

theorem lastStored_map {tasks : List τ} (context : τ → κ) (ht : t ∈ tasks) :
    lastStored t (tasks.map fun t => .stored t (context t)) = some (context t) := by
  induction tasks with
  | nil => cases ht
  | cons u tasks ih =>
    rw [List.map_cons, lastStored]
    split_ifs with hu
    · rw [hu]
    · exact ih ((List.mem_cons.mp ht).resolve_left fun h => hu h.symm)

end Log

omit [DecidableEq π] [DecidableEq l] in
theorem inv_init (tasks : List τ) {idle : τ} (hidle : idle ∈ tasks) (kernel : α) (pml4 : φ)
    (context : τ → κ) : Inv (init tasks idle kernel pml4 context : Switch π τ l α φ κ) where
  procs := Procs.inv_init tasks
  distinct x y hx hy _ := (of_decide_eq_true hx).trans (of_decide_eq_true hy).symm
  kernel := decide_eq_true rfl
  space q hq := absurd rfl hq
  apart q _ hq := absurd rfl hq
  task t _ := rfl
  created q t ht := by cases ht
  current t ht := by cases ht
  active t ht := by cases ht
  idle := ⟨by simp [init, Procs.init, hidle], rfl⟩
  reaper a ha := by
    simp only [init, Procs.init] at ha
    split_ifs at ha <;> simp [inReaper] at ha
  nodup := List.nodup_nil
  index a q i ha := by
    simp only [init, Procs.init] at ha
    split_ifs at ha <;> simp [reapIndex] at ha
  gone q hq := by cases hq
  stored t ht := by
    apply lastStored_map
    by_contra hmem
    exact ht (by simp [init, Procs.init, hmem])
  resumed := resumesStored_map tasks context

variable {s s' : Switch π τ l α φ κ} {a t : τ} {q : π}

namespace Inv

omit [DecidableEq π] [DecidableEq l] [DecidableEq α] in
theorem owner (h : Inv s) (hq : s.procs.owner t = some q) : s.procs.phase q ≠ .unborn :=
  h.created q t (h.procs.owned t q hq)

omit [DecidableEq π] [DecidableEq l] [DecidableEq α] in
theorem owner_deleted (h : Inv s) (hq : s.procs.owner t = some q)
    (ht : s.procs.life t ≠ .removed) : s.procs.deleted q = false := by
  rw [Bool.eq_false_iff]
  intro hdel
  exact ht ((h.procs.done q (.inr hdel)).2 t (h.procs.owned t q hq))

omit [DecidableEq π] [DecidableEq l] [DecidableEq α] in
theorem live_taskSpace (h : Inv s) (hborn : s.procs.life t ≠ .unborn)
    (ht : s.procs.life t ≠ .removed) : s.live (s.taskSpace t) = true := by
  rw [h.task t hborn]
  cases hq : s.procs.owner t with
  | none => exact h.kernel
  | some q => exact (h.space q (h.owner hq) (h.owner_deleted hq ht)).1

omit [DecidableEq π] [DecidableEq l] [DecidableEq α] in
theorem live_current (h : Inv s) (ht : s.currentTask = some t) :
    s.live (s.taskSpace t) = true := by
  rcases h.current t ht with hl | hl <;> exact h.live_taskSpace (by simp [hl]) (by simp [hl])

omit [DecidableEq π] [DecidableEq l] [DecidableEq α] in
/-- The address space of the current task is the one of its process. -/
theorem own (h : Inv s) (ht : s.currentTask = some t) (hq : s.procs.owner t = some q) :
    s.procs.deleted q = false ∧ s.taskSpace t = s.procSpace q := by
  have hlife : s.procs.life t ≠ .unborn ∧ s.procs.life t ≠ .removed := by
    rcases h.current t ht with hl | hl <;> simp [hl]
  refine ⟨h.owner_deleted hq hlife.2, ?_⟩
  rw [h.task t hlife.1, hq]
  rfl

omit [DecidableEq π] [DecidableEq l] [DecidableEq α] in
theorem setContext (h : Inv s) (t : τ) (ctx : κ) : Inv (s.setContext t ctx) where
  __ := h
  stored u hu := by
    dsimp only [Switch.setContext]
    rw [lastStored]
    split_ifs with htu
    · rw [htu, Function.update_self]
    · rw [Function.update_of_ne (Ne.symm htu)]
      exact h.stored u hu
  resumed := h.resumed.stored t ctx

omit [DecidableEq π] [DecidableEq l] [DecidableEq α] in
theorem switchTo (h : Inv s) {next : τ} (hnext : s.procs.life next = .running) {p : Option φ}
    (hp : p = s.pml4 (s.taskSpace next)) :
    Inv { s with
      cr3 := p, currentTask := some next, log := .resumed next (s.context next) :: s.log } where
  __ := h
  current t ht := by
    cases ht
    exact .inl hnext
  active t ht := by
    cases ht
    exact hp
  stored := h.stored
  resumed := h.resumed.resumed (h.stored next (by simp [hnext]))

omit [DecidableEq π] [DecidableEq l] in
theorem schedule (h : Inv s) (ctx : κ) {next : τ} (hnext : s.procs.life next = .running) :
    Inv (s.schedule ctx next).2 := by
  rw [Switch.schedule]
  split_ifs with hcur
  · exact h
  cases ht : s.currentTask with
  | none => exact h.switchTo hnext rfl
  | some t =>
    simp only [Option.elim]
    by_cases hsame : s.taskSpace t = s.taskSpace next
    · simp only [hsame, ne_eq, not_true_eq_false, decide_false, Bool.false_eq_true, if_false]
      refine (h.setContext t ctx).switchTo hnext ?_
      exact (h.active t ht).trans (congrArg s.pml4 hsame)
    · simp only [hsame, ne_eq, not_false_eq_true, decide_true, if_true]
      exact (h.setContext t ctx).switchTo hnext rfl

omit [DecidableEq l] in
/-- A constructor of a process begins with a new address space. -/
theorem newSpace {x : α} {p : φ} {c : ProcPc π τ} (h : Inv s)
    (hfresh : s.live x = false ∧ ∀ y, s.live y = true → s.pml4 y ≠ some p)
    (hunborn : s.procs.phase q = .unborn) (hc : inReaper c = false) (hi : reapIndex c = none)
    (hinv : Procs.Inv ((s.procs.setPhase q .started).goto a c)) :
    Inv ({ s with procs := (s.procs.setPhase q .started).goto a c }.newSpace q x p) := by
  obtain ⟨hdead, hp⟩ := hfresh
  have hne : ∀ y, s.live y = true → y ≠ x := by
    rintro y hy rfl
    rw [hdead] at hy
    cases hy
  have hold : ∀ r, Function.update s.procs.phase q .started r ≠ .unborn → r ≠ q →
      s.procs.phase r ≠ .unborn := by
    intro r hr hrq
    rwa [Function.update_of_ne hrq] at hr
  refine ⟨hinv, ?_, ?_, ?_, ?_, ?_, ?_, h.current, ?_, h.idle, ?_, h.nodup, ?_, h.gone,
    h.stored, h.resumed⟩
  · intro y z hy hz heq
    dsimp only [Switch.newSpace] at hy hz heq
    rcases eq_or_ne x y with rfl | hxy <;> rcases eq_or_ne x z with rfl | hxz
    · rfl
    · rw [Function.update_of_ne hxz.symm] at hz
      rw [Function.update_self, Function.update_of_ne hxz.symm] at heq
      exact absurd heq.symm (hp z hz)
    · rw [Function.update_of_ne hxy.symm] at hy
      rw [Function.update_self, Function.update_of_ne hxy.symm] at heq
      exact absurd heq (hp y hy)
    · rw [Function.update_of_ne hxy.symm] at hy
      rw [Function.update_of_ne hxz.symm] at hz
      rw [Function.update_of_ne hxy.symm, Function.update_of_ne hxz.symm] at heq
      exact h.distinct y z hy hz heq
  · exact (Function.update_of_ne (hne _ h.kernel) _ _).trans h.kernel
  · intro r hr hdel
    dsimp only [Switch.newSpace]
    rcases eq_or_ne r q with rfl | hrq
    · rw [Function.update_self, Function.update_self]
      exact ⟨rfl, (hne _ h.kernel).symm⟩
    · obtain ⟨hlive, hker⟩ := h.space r (hold r hr hrq) hdel
      rw [Function.update_of_ne hrq, Function.update_of_ne (hne _ hlive)]
      exact ⟨hlive, hker⟩
  · intro r r' hr hdel hr' hdel' heq
    dsimp only [Switch.newSpace] at heq
    rcases eq_or_ne q r with rfl | hqr <;> rcases eq_or_ne q r' with rfl | hqr'
    · rfl
    · rw [Function.update_self, Function.update_of_ne hqr'.symm] at heq
      exact absurd heq.symm (hne _ (h.space r' (hold r' hr' hqr'.symm) hdel').1)
    · rw [Function.update_self, Function.update_of_ne hqr.symm] at heq
      exact absurd heq (hne _ (h.space r (hold r hr hqr.symm) hdel).1)
    · rw [Function.update_of_ne hqr.symm, Function.update_of_ne hqr'.symm] at heq
      exact h.apart r r' (hold r hr hqr.symm) hdel (hold r' hr' hqr'.symm) hdel' heq
  · intro t ht
    refine (h.task t ht).trans ?_
    dsimp only [Switch.newSpace, goto, setPhase]
    cases hr : s.procs.owner t with
    | none => rfl
    | some r =>
      have hrq : r ≠ q := by
        rintro rfl
        exact h.owner hr hunborn
      exact (Function.update_of_ne hrq x s.procSpace).symm
  · intro r t ht
    dsimp only [Switch.newSpace, goto, setPhase]
    rcases eq_or_ne r q with rfl | hrq
    · simp
    · rw [Function.update_of_ne hrq]
      exact h.created r t ht
  · intro t ht
    exact (h.active t ht).trans (Function.update_of_ne (hne _ (h.live_current ht)) _ _).symm
  · intro b hb
    dsimp only [Switch.newSpace, goto, setPhase] at hb
    rcases eq_or_ne b a with rfl | hba
    · rw [Function.update_self, hc] at hb
      cases hb
    · rw [Function.update_of_ne hba] at hb
      exact h.reaper b hb
  · intro b r i hb
    dsimp only [Switch.newSpace, goto, setPhase] at hb
    rcases eq_or_ne b a with rfl | hba
    · rw [Function.update_self, hi] at hb
      cases hb
    · rw [Function.update_of_ne hba] at hb
      exact h.index b r i hb

omit [DecidableEq π] [DecidableEq l] [DecidableEq α] in
theorem apply (h : Inv s) (ha : s.currentTask = some a) (hq : s.procs.owner a = some q) :
    Inv (s.apply (s.procSpace q)) where
  __ := h
  active t ht := by
    have hta : a = t := Option.some.inj (ha.symm.trans ht)
    subst hta
    have hborn : s.procs.life a ≠ .unborn := by
      rcases h.current a ha with hl | hl <;> simp [hl]
    have hspace := h.task a hborn
    rw [hq] at hspace
    exact congrArg s.pml4 hspace.symm

omit [DecidableEq l] [DecidableEq α] in
/-- A new task gets the address space of its process. -/
theorem create {c : ProcPc π τ} (h : Inv s) (ctx : κ) (hu : s.procs.life t = .unborn)
    (hq : s.procs.phase q ≠ .unborn) (hc : inReaper c = false) (hi : reapIndex c = none)
    {procs : Procs π τ l} (hprocs : procs = { s.procs.setLife t .fresh with
      owner := Function.update s.procs.owner t (some q)
      created := Function.update s.procs.created q (s.procs.created q ++ [t]) }.goto a c)
    (hinv : Procs.Inv procs) :
    Inv ({ s with
      procs := procs
      taskSpace := Function.update s.taskSpace t (s.procSpace q) }.setContext t ctx) := by
  have hne : ∀ u, s.procs.life u ≠ .unborn → u ≠ t := by
    rintro u hl rfl
    exact hl hu
  have hcur : ∀ u, s.currentTask = some u → u ≠ t := by
    intro u hcu
    apply hne
    rcases h.current u hcu with hl | hl <;> simp [hl]
  have hold : ∀ u, procs.life u ≠ .unborn → u ≠ t → s.procs.life u ≠ .unborn := by
    intro u hl hut
    rw [hprocs] at hl
    simpa [Function.update_of_ne hut] using hl
  have howner : procs.owner = Function.update s.procs.owner t (some q) := by rw [hprocs]; rfl
  have hphase : procs.phase = s.procs.phase := by rw [hprocs]; rfl
  have hdel : procs.deleted = s.procs.deleted := by rw [hprocs]; rfl
  have hlife : ∀ u, u ≠ t → procs.life u = s.procs.life u := by
    intro u hut
    rw [hprocs]
    exact Function.update_of_ne hut _ _
  have hlist : procs.procList = s.procs.procList := by rw [hprocs]; rfl
  have hpc : procs.pc = Function.update s.procs.pc a c := by rw [hprocs]; rfl
  refine ⟨hinv, h.distinct, h.kernel, ?_, ?_, ?_, ?_, ?_, ?_, ?_, ?_, ?_, ?_, ?_, ?_,
    h.resumed.stored t ctx⟩
  · intro r hr hd
    exact h.space r (by rwa [← hphase]) (by rwa [← hdel])
  · intro r r' hr hd hr' hd'
    exact h.apart r r' (by rwa [← hphase]) (by rwa [← hdel]) (by rwa [← hphase]) (by rwa [← hdel])
  · intro u hl
    dsimp only [Switch.setContext]
    rw [howner]
    rcases eq_or_ne u t with rfl | hut
    · rw [Function.update_self, Function.update_self]
      rfl
    · rw [Function.update_of_ne hut, Function.update_of_ne hut]
      exact h.task u (hold u hl hut)
  · intro r u hu
    dsimp only [Switch.setContext] at hu ⊢
    rw [hphase]
    rcases eq_or_ne r q with rfl | hrq
    · exact hq
    · rw [hprocs] at hu
      dsimp only [goto] at hu
      rw [Function.update_of_ne hrq] at hu
      exact h.created r u hu
  · intro u hcu
    dsimp only [Switch.setContext]
    rw [hlife u (hcur u hcu)]
    exact h.current u hcu
  · intro u hcu
    dsimp only [Switch.setContext]
    rw [Function.update_of_ne (hcur u hcu)]
    exact h.active u hcu
  · have hidle := hne _ h.idle.1
    dsimp only [Switch.setContext]
    rw [hlife _ hidle, howner, Function.update_of_ne hidle]
    exact h.idle
  · intro b hb
    dsimp only [Switch.setContext] at hb ⊢
    rw [hpc] at hb
    rcases eq_or_ne b a with rfl | hba
    · rw [Function.update_self, hc] at hb
      cases hb
    · rw [Function.update_of_ne hba] at hb
      exact h.reaper b hb
  · exact hlist ▸ h.nodup
  · intro b r i hb
    dsimp only [Switch.setContext] at hb ⊢
    rw [hpc] at hb
    rw [hlist]
    rcases eq_or_ne b a with rfl | hba
    · rw [Function.update_self, hi] at hb
      cases hb
    · rw [Function.update_of_ne hba] at hb
      exact h.index b r i hb
  · intro r hr
    dsimp only [Switch.setContext] at hr ⊢
    rw [hlist]
    exact h.gone r (by rwa [← hdel])
  · intro u hl
    dsimp only [Switch.setContext]
    rw [lastStored]
    split_ifs with htu
    · rw [htu, Function.update_self]
    · rw [Function.update_of_ne (Ne.symm htu)]
      exact h.stored u (hold u hl (Ne.symm htu))

omit [DecidableEq π] [DecidableEq l] [DecidableEq α] in
/-- What holds when the reaper deletes a process. -/
theorem deleting {e : Procs.Event π τ l} (h : Inv s) (hdel : deletes s.procs e = some q) :
    s.taskSpace e.actor = s.kernel ∧ s.procs.phase q ≠ .unborn ∧ s.procs.deleted q = false := by
  cases e with
  | exec a =>
    simp only [deletes] at hdel
    split at hdel
    case h_1 r i hp =>
      rw [Option.ite_none_right_eq_some, Option.some.injEq] at hdel
      obtain ⟨-, rfl⟩ := hdel
      have hidle : a = s.idle := h.reaper a (by simp [hp, inReaper])
      have hmem : r ∈ s.procs.procList := h.procs.reaped a r (by simp [hp])
      subst hidle
      refine ⟨?_, h.procs.listed r hmem, ?_⟩
      · exact (h.task s.idle h.idle.1).trans (by rw [h.idle.2]; rfl)
      · rw [Bool.eq_false_iff]
        exact fun hd => h.gone r hd hmem
    case h_2 => cases hdel
  | _ => cases hdel

omit [DecidableEq π] [DecidableEq l] [DecidableEq α] in
theorem spared {e : Procs.Event π τ l} (h : Inv s) (hcur : s.currentTask = some e.actor)
    (hdel : deletes s.procs e = some q) : s.pml4 (s.procSpace q) ≠ s.cr3 := by
  obtain ⟨hkernel, hborn, hnot⟩ := h.deleting hdel
  obtain ⟨hlive, hne⟩ := h.space q hborn hnot
  rw [h.active _ hcur, hkernel]
  exact fun heq => hne (h.distinct _ _ hlive h.kernel heq)

variable {e : Procs.Event π τ l} {procs : Procs π τ l}

omit [DecidableEq π] [DecidableEq l] [DecidableEq α] in
theorem nodup_of_keeps (h : Inv s) (hk : Keeps s.procs procs a e) : procs.procList.Nodup := by
  rcases hk.lists with ⟨-, hlist | ⟨q, hq, hlist⟩⟩ | ⟨q, i, -, -, hlist⟩
  · exact hlist ▸ h.nodup
  · rw [hlist, ← List.concat_eq_append]
    exact List.Nodup.concat (h.procs.unlisted a q hq) h.nodup
  · exact hlist ▸ h.nodup.sublist (List.eraseIdx_sublist _ _)

omit [DecidableEq π] [DecidableEq l] [DecidableEq α] in
theorem index_of_keeps (h : Inv s) (hk : Keeps s.procs procs a e) {b : τ} {i : ℕ}
    (hb : reapIndex (procs.pc b) = some (q, i)) : procs.procList[i]? = some q := by
  rcases eq_or_ne b a with rfl | hba
  · obtain ⟨hlist, hi | hi⟩ := hk.index q i hb
    · exact hlist ▸ h.index b q i hi
    · exact hlist ▸ hi
  rw [hk.pc b hba] at hb
  have hget := h.index b q i hb
  rcases hk.lists with ⟨-, hlist | ⟨r, -, hlist⟩⟩ | ⟨r, j, hp, -, -⟩
  · rwa [hlist]
  · rw [hlist, List.getElem?_append_left (List.getElem?_eq_some_iff.mp hget).1, hget]
  · -- only the idle task looks at processes
    have hidle : a = s.idle := h.reaper a (by simp [hp, inReaper])
    have hreap : inReaper (s.procs.pc b) = true := by
      unfold reapIndex at hb
      split at hb <;> simp_all [inReaper]
    exact absurd ((h.reaper b hreap).trans hidle.symm) hba

omit [DecidableEq l] [DecidableEq α] in
theorem gone_of_keeps (h : Inv s) (hk : Keeps s.procs procs a e) (hq : procs.deleted q = true) :
    q ∉ procs.procList := by
  rcases (hk.deleted q).mp hq with hdel | hdel
  · have hnot := h.gone q hdel
    rcases hk.lists with ⟨-, hlist | ⟨r, hr, hlist⟩⟩ | ⟨r, i, -, -, hlist⟩
    · rwa [hlist]
    · rw [hlist, List.mem_append, List.mem_singleton]
      rintro (hmem | rfl)
      · exact hnot hmem
      · obtain ⟨x, hx⟩ := constructing_of_listing hr
        have hphase := (h.procs.done q (.inr hdel)).1
        rw [h.procs.phase_eq a q x hx] at hphase
        subst hphase
        rcases constructing_ne hx with h' | h' <;> cases h'
    · rw [hlist]
      exact fun hmem => hnot (List.mem_of_mem_eraseIdx hmem)
  · rcases hk.lists with ⟨hnone, -⟩ | ⟨r, i, hp, hr, hlist⟩
    · rw [hnone] at hdel
      cases hdel
    · rw [hdel] at hr
      cases hr
      have hget := h.index a q i (by simp [hp, reapIndex])
      obtain ⟨hlt, heq⟩ := List.getElem?_eq_some_iff.mp hget
      rw [hlist, ← List.Nodup.erase_getElem h.nodup i hlt, heq]
      exact List.Nodup.not_mem_erase h.nodup

omit [DecidableEq l] [DecidableEq α] in
/-- A plain step, after which the address spaces of the processes that are left are there. -/
theorem of_keeps {live : α → Bool} {pml4 : α → Option φ} (h : Inv s)
    (hcur : s.currentTask = some e.actor) (hplain : s.Plain e)
    (hk : Keeps s.procs procs e.actor e) (hinv : Procs.Inv procs)
    (hlive : ∀ x, live x = true → s.live x = true ∧ pml4 x = s.pml4 x)
    (hkernel : live s.kernel = true) (hactive : live (s.taskSpace e.actor) = true)
    (hspace : ∀ q, s.procs.phase q ≠ .unborn → procs.deleted q = false →
      live (s.procSpace q) = true) :
    Inv { s with procs := procs, live := live, pml4 := pml4 } := by
  have hdel : ∀ q, procs.deleted q = false → s.procs.deleted q = false := by
    intro q hq
    rw [Bool.eq_false_iff] at hq ⊢
    exact fun hd => hq ((hk.deleted q).mpr (.inl hd))
  have hborn : ∀ q, procs.phase q ≠ .unborn → s.procs.phase q ≠ .unborn :=
    fun q hq hu => hq ((hk.phase q).mpr hu)
  have hte : ∀ t, s.currentTask = some t → e.actor = t :=
    fun t ht => Option.some.inj (hcur.symm.trans ht)
  refine ⟨hinv, ?_, hkernel, ?_, ?_, ?_, ?_, ?_, ?_, ?_, ?_, h.nodup_of_keeps hk,
    fun b q i hb => h.index_of_keeps hk hb, fun q hq => h.gone_of_keeps hk hq, ?_, h.resumed⟩
  · intro x y hx hy heq
    obtain ⟨hx', hxp⟩ := hlive x hx
    obtain ⟨hy', hyp⟩ := hlive y hy
    dsimp only at heq
    rw [hxp, hyp] at heq
    exact h.distinct x y hx' hy' heq
  · intro q hq hd
    exact ⟨hspace q (hborn q hq) hd, (h.space q (hborn q hq) (hdel q hd)).2⟩
  · intro q r hq hd hr hd'
    exact h.apart q r (hborn q hq) (hdel q hd) (hborn r hr) (hdel r hd')
  · intro t ht
    dsimp only
    rw [hk.owner]
    exact h.task t fun hu => ht ((hk.unborn t).mpr hu)
  · intro q t ht
    dsimp only at ht ⊢
    rw [hk.created] at ht
    exact fun hu => h.created q t ht ((hk.phase q).mp hu)
  · intro t ht
    exact hte t ht ▸ hk.actor
  · intro t ht
    obtain rfl := hte t ht
    exact (h.active _ hcur).trans (hlive _ hactive).2.symm
  · dsimp only
    rw [hk.owner]
    exact ⟨fun hu => h.idle.1 ((hk.unborn _).mp hu), h.idle.2⟩
  · intro b hb
    rcases eq_or_ne b e.actor with rfl | hba
    · rcases hk.reaper hb with hr | hr
      · exact h.reaper _ hr
      · rw [hr] at hplain
        exact hplain
    · dsimp only at hb
      rw [hk.pc b hba] at hb
      exact h.reaper b hb
  · intro t ht
    exact h.stored t fun hu => ht ((hk.unborn t).mpr hu)

omit [DecidableEq l] in
theorem proc (h : Inv s) (hcur : s.currentTask = some e.actor) (hplain : s.Plain e)
    (hk : Keeps s.procs procs e.actor e) (hinv : Procs.Inv procs) :
    Inv ((deletes s.procs e).elim { s with procs := procs }
      fun q => { s with procs := procs }.deleteSpace (s.procSpace q)) := by
  cases hdel : deletes s.procs e with
  | none =>
    refine h.of_keeps hcur hplain hk hinv (fun _ hx => ⟨hx, rfl⟩) h.kernel (h.live_current hcur) ?_
    intro q hq hd
    refine (h.space q hq ?_).1
    rw [Bool.eq_false_iff] at hd ⊢
    exact fun hd' => hd ((hk.deleted q).mpr (.inl hd'))
  | some q =>
    obtain ⟨hspace, hborn, hnot⟩ := h.deleting hdel
    have hkernel : Function.update s.live (s.procSpace q) false s.kernel = true :=
      (Function.update_of_ne (h.space q hborn hnot).2.symm _ _).trans h.kernel
    refine h.of_keeps hcur hplain hk hinv ?_ hkernel (by rwa [hspace]) ?_
    · intro x hx
      rcases eq_or_ne x (s.procSpace q) with rfl | hne
      · simp at hx
      · exact ⟨by rwa [Function.update_of_ne hne] at hx, Function.update_of_ne hne _ _⟩
    · intro r hr hd
      have hnot' : s.procs.deleted r = false := by
        rw [Bool.eq_false_iff] at hd ⊢
        exact fun hd' => hd ((hk.deleted r).mpr (.inl hd'))
      have hne : s.procSpace r ≠ s.procSpace q := by
        intro heq
        obtain rfl := h.apart r q hr hnot' hborn hnot heq
        exact Bool.eq_false_iff.mp hd ((hk.deleted r).mpr (.inr hdel))
      exact (Function.update_of_ne hne _ _).trans (h.space r hr hnot').1

omit [DecidableEq π] [DecidableEq l] [DecidableEq α] in
/-- The process of which a task constructs a `UserTask` is there. -/
theorem creating (h : Inv s) (hq : Switch.creating (s.procs.pc a) = some q) :
    s.procs.phase q ≠ .unborn := by
  have hstarted : ∀ x, constructing (s.procs.pc a) = some (q, x) → s.procs.phase q ≠ .unborn := by
    intro x hx
    rw [h.procs.phase_eq a q x hx]
    rcases constructing_ne hx with rfl | rfl <;> simp
  unfold Switch.creating at hq
  split at hq
  case h_1 r first hp =>
    cases hq
    cases first with
    | true => exact hstarted .started (by simp [hp])
    | false => exact h.created q a (h.procs.adder a q (by simp [hp]))
  case h_2 r hp =>
    cases hq
    exact hstarted .started (by simp [hp])
  case h_3 => cases hq

end Inv

omit [DecidableEq α] in
theorem act_eq_some {e : Procs.Event π τ l} : s.act e = some s' ↔ s.currentTask = some e.actor ∧
    ∃ procs, s.procs.step e = some procs ∧ s' = { s with procs := procs } := by
  rw [act, Option.ite_none_right_eq_some, Option.map_eq_some_iff]
  simp only [eq_comm]

/-- No process is counted before `fork` has given it a task. -/
def CountsPopulated (s : Switch π τ l α φ κ) : Event π τ l α φ κ → Prop
  | .proc e => s.procs.Populated e
  | _ => True

theorem Inv.step {e : Event π τ l α φ κ} (h : Inv s) (hok : s.Legal e) (hpop : s.CountsPopulated e)
    (hs : s.step e = some s') : Inv s' := by
  cases e with
  | schedule ctx next =>
    cases hs
    exact h.schedule ctx hok
  | syscall ctx =>
    simp only [Switch.step, Option.bind_eq_bind, Option.bind_eq_some_iff, Option.some.injEq] at hs
    obtain ⟨t, -, rfl⟩ := hs
    exact h.setContext t ctx
  | newProcess q x p =>
    simp only [Switch.step, Option.bind_eq_bind, Option.bind_eq_some_iff, Option.pure_def,
      Option.some.injEq] at hs
    obtain ⟨a, -, s₁, hact, rfl⟩ := hs
    obtain ⟨-, procs, hstep, rfl⟩ := act_eq_some.mp hact
    have hinv := Procs.step_inv (i := .newProcess a q) h.procs trivial hstep
    simp only [Procs.step, Procs.act, Option.ite_none_right_eq_some, Option.some.injEq] at hstep
    obtain ⟨-, ⟨-, hunborn⟩, rfl⟩ := hstep
    exact h.newSpace hok hunborn rfl rfl hinv
  | fork q x p =>
    simp only [Switch.step, Option.bind_eq_bind, Option.bind_eq_some_iff, Option.pure_def,
      Option.some.injEq] at hs
    obtain ⟨a, -, s₁, hact, rfl⟩ := hs
    obtain ⟨-, procs, hstep, rfl⟩ := act_eq_some.mp hact
    have hinv := Procs.step_inv (i := .fork a q) h.procs trivial hstep
    simp only [Procs.step, Procs.act, Option.ite_none_right_eq_some, Option.some.injEq] at hstep
    obtain ⟨-, ⟨-, -, hunborn⟩, rfl⟩ := hstep
    exact h.newSpace hok hunborn rfl rfl hinv
  | apply =>
    simp only [Switch.step, Option.bind_eq_bind, Option.bind_eq_some_iff, Option.pure_def,
      Option.some.injEq] at hs
    obtain ⟨a, ha, q, hq, rfl⟩ := hs
    exact h.apply ha hq
  | create t ctx =>
    simp only [Switch.step, Option.bind_eq_bind, Option.bind_eq_some_iff, Option.pure_def,
      Option.some.injEq] at hs
    obtain ⟨a, -, q, hq, s₁, hact, rfl⟩ := hs
    obtain ⟨-, procs, hstep, rfl⟩ := act_eq_some.mp hact
    have hinv := Procs.step_inv (i := .create a t) h.procs trivial hstep
    have hborn := h.creating hq
    simp only [Procs.step, Procs.act, Option.ite_none_right_eq_some] at hstep
    obtain ⟨-, hstep⟩ := hstep
    split at hstep
    case h_1 r first hp =>
      rw [hp] at hq
      cases hq
      rw [createTask, Option.ite_none_right_eq_some, Option.some.injEq] at hstep
      exact h.create ctx hstep.1 hborn rfl rfl hstep.2.symm hinv
    case h_2 r hp =>
      rw [hp] at hq
      cases hq
      rw [createTask, Option.ite_none_right_eq_some, Option.some.injEq] at hstep
      exact h.create ctx hstep.1 hborn rfl rfl hstep.2.symm hinv
    case h_3 => cases hstep
  | proc e =>
    simp only [Switch.step, Option.bind_eq_bind, Option.bind_eq_some_iff, Option.pure_def,
      Option.some.injEq] at hs
    obtain ⟨s₁, hact, rfl⟩ := hs
    obtain ⟨hcur, procs, hstep, rfl⟩ := act_eq_some.mp hact
    exact h.proc hcur hok (keeps_step h.procs hok hstep) (Procs.step_inv h.procs hpop hstep)

/-- CR3 holds the PML4 of the address space of the current task, which is still the one of its
process, every task was resumed with the context stored last, and no step deletes the active address
space. -/
structure Sound (s : Switch π τ l α φ κ) : Prop where
  active : ∀ t, s.currentTask = some t →
    s.live (s.taskSpace t) = true ∧ s.cr3 = s.pml4 (s.taskSpace t)
  own : ∀ t q, s.currentTask = some t → s.procs.owner t = some q →
    s.procs.deleted q = false ∧ s.taskSpace t = s.procSpace q
  resumed : ResumesStored s.log
  spared : ∀ e q, s.currentTask = some e.actor → deletes s.procs e = some q →
    s.pml4 (s.procSpace q) ≠ s.cr3

/-- In a run in which no process is counted too early, the active address space is that of the
current task. -/
theorem sound_of_countsPopulated (tasks : List τ) (idle : τ) (hidle : idle ∈ tasks) (kernel : α)
    (pml4 : φ) (context : τ → κ) (s : Switch π τ l α φ κ)
    (h : Run.Reachable step (fun s e => s.Legal e ∧ s.CountsPopulated e)
      (init tasks idle kernel pml4 context) s) : s.Sound := by
  have hinv : Inv s := h.invariant (inv_init tasks hidle kernel pml4 context)
    fun _ _ _ hs hok hstep => hs.step hok.1 hok.2 hstep
  exact ⟨fun t ht => ⟨hinv.live_current ht, hinv.active t ht⟩, fun t q ht hq => hinv.own ht hq,
    hinv.resumed, fun e q hcur hdel => hinv.spared hcur hdel⟩

section Forked

attribute [local instance] Procs.neZero_two Procs.neZero_three

/-- Three processes, the initial task 0, the idle task 1, and the address space 0 of the kernel. -/
abbrev Small := Switch (Fin 3) (Fin 4) Unit (Fin 3) ℕ ℕ

abbrev SmallEvent := Event (Fin 3) (Fin 4) Unit (Fin 3) ℕ ℕ

def small : Small := init [0, 1] 1 0 0 fun _ => 0

/-- The initial task constructs a process with the task 2, which forks a second process. -/
def forkCalls : List SmallEvent :=
  [Event.schedule 10 0, .newProcess 0 1 1, .proc (.exec 0), .create 2 12] ++
    List.replicate 6 (Event.proc (.exec 0)) ++
    [Event.schedule 11 2, .syscall 13, .proc (.enter 2), .fork 1 2 2, .apply] ++
    List.replicate 3 (Event.proc (.exec 2))

/-- The second process gets its task 3, which exits, and the idle task deletes the process. -/
def deletedCalls : List SmallEvent :=
  forkCalls ++ [Event.create 3 14, .proc (.exec 2), .proc (.exec 2), .schedule 15 3,
    .proc (.threadExit 3), .schedule 16 1, .proc (.reap 1)] ++
    List.replicate 12 (Event.proc (.exec 1))

instance (s : Small) : DecidablePred s.Legal
  | .schedule _ next => inferInstanceAs (Decidable (s.procs.life next = .running))
  | .newProcess _ x p | .fork _ x p =>
    inferInstanceAs (Decidable (s.live x = false ∧ ∀ y, s.live y = true → s.pml4 y ≠ some p))
  | .apply => inferInstanceAs (Decidable (∃ a ∈ s.currentTask, cloned (s.procs.pc a) = true))
  | .proc e => inferInstanceAs (Decidable (s.Plain e))
  | .syscall _ | .create _ _ => isTrue trivial

instance (s : Small) : DecidablePred s.CountsPopulated
  | .proc e => inferInstanceAs (Decidable (s.procs.Populated e))
  | .schedule _ _ | .newProcess _ _ _ | .fork _ _ _ | .apply | .syscall _ | .create _ _ =>
    isTrue trivial

theorem sound_of_countsPopulated_deletedCalls : ∃ s,
    Run.guardedRun step (fun s e => s.Legal e ∧ s.CountsPopulated e) small deletedCalls = some s ∧
      s.procs.deleted 1 = true ∧ s.Sound := by
  have hrun : (Run.guardedRun step (fun s e => s.Legal e ∧ s.CountsPopulated e) small
      deletedCalls).map (fun s => s.procs.deleted 1) = some true := by
    decide_cbv
  obtain ⟨s, hs, hdel⟩ := Option.map_eq_some_iff.mp hrun
  exact ⟨s, hs, hdel, sound_of_countsPopulated [0, 1] 1 (by decide) 0 0 (fun _ => 0) s
    (Run.reachable_of_guardedRun hs)⟩

/-- The idle task marks the second process before it has its task, and deletes it afterwards. -/
def earlyMarkCalls : List SmallEvent :=
  forkCalls ++ [Event.schedule 15 1, .proc (.reap 1)] ++ List.replicate 11 (Event.proc (.exec 1)) ++
    [Event.schedule 16 2, .create 3 14, .proc (.exec 2), .proc (.exec 2), .schedule 17 1] ++
    List.replicate 3 (Event.proc (.exec 1))

/-- The address space of a third process is allocated where the deleted one was, and the task of the
deleted process runs. -/
def reusedCalls : List SmallEvent :=
  earlyMarkCalls ++ [Event.schedule 18 2, .fork 2 2 3, .apply, .schedule 19 3]

theorem not_sound_of_legal : ¬ ∀ s : Small, Run.Reachable step Legal small s → s.Sound := by
  intro hall
  have hrun : (Run.guardedRun step Legal small reusedCalls).map
      (fun s => (s.currentTask, s.procs.owner 3, s.procs.deleted 1)) =
        some (some 3, some 1, true) := by
    decide_cbv
  obtain ⟨s, hs, heq⟩ := Option.map_eq_some_iff.mp hrun
  simp only [Prod.mk.injEq] at heq
  obtain ⟨hcur, howner, hdel⟩ := heq
  have hnot := ((hall s (Run.reachable_of_guardedRun hs)).own 3 1 hcur howner).1
  rw [hdel] at hnot
  cases hnot

-- without the third process CR3 is loaded from the memory of the deleted address space
example : (Run.guardedRun step Legal small (earlyMarkCalls ++ [Event.schedule 18 3])).map
    (fun s => (s.currentTask, s.live (s.taskSpace 3), s.cr3)) = some (some 3, false, none) := by
  decide_cbv

end Forked

end Switch

end Koerix
