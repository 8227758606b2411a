import Koerix.Queue.Irq
import Mathlib.Data.List.Nodup

/-! # Subscribers and device interrupts

A task that reads subscribes and goes to sleep with the interrupts off, but the
lock switches them on again before the task is switched out. An interrupt in
between finds the current task among the subscribers. Another one may come
inside `lock()` before the interrupts are off: the handler takes the same lock
and clears `m_irqsWereEnabled`, and a task that has not tested it yet goes on
with the interrupts on. At all other points the subscribers sleep and are not
current, and so are the tasks that a handler has taken off the list.
-/

namespace Koerix

namespace IrqQueue

variable {τ : Type} [DecidableEq τ]

/-- The task has the buffer lock. -/
@[simp] def critical : IrqPc → Bool
  | .lockSet _ | .readPush _ | .readDisable _ | .readSleep _ | .readRelease _ => true
  | .readReleased _ | .readLoop _ | .readUnlock | .readUnlocked => true
  | _ => false

/-- The task has switched the scheduler off. -/
@[simp] def unscheduled : IrqPc → Bool
  | .readSleep _ | .readRelease _ | .readReleased _ | .readEnable _ => true
  | _ => false

/-- The task is subscribed, and about to sleep. -/
@[simp] def subscribing : IrqPc → Bool
  | .readDisable _ | .readSleep _ => true
  | _ => false

/-- The task has fallen asleep, and has not been switched out. -/
@[simp] def dozing : IrqPc → Bool
  | .readRelease _ | .readReleased _ | .readEnable _ => true
  | _ => false

/-- Where a task may sleep. -/
@[simp] def mayDoze : IrqPc → Bool
  | .readRelease _ | .readReleased _ | .readEnable _ | .readYield _ => true
  | _ => false

@[simp] def maySleep : IrqPc → Bool
  | .readRelease _ | .readReleased _ | .readEnable _ | .readYield _ | .readScope _ => true
  | _ => false

/-- The task has released the buffer lock in `sleepAndUnlock()`. -/
@[simp] def released : IrqPc → Bool
  | .readEnable _ | .readYield _ => true
  | _ => false

/-- The task that a handler has taken off the list of subscribers. -/
@[simp] def item : HandlerPc τ → Option τ
  | .heapXchg task | .heapYield task | .heapHold task | .resume task => some task
  | .lock _ | .write _ | .pop | .unlock => none

/-- The handler on top of `u` has taken `t` off the list. -/
def Popped (s : IrqQueue τ) (u t : τ) : Prop := (s.handler u).bind item = some t

/-- If the current task is about to test `m_irqsWereEnabled` in `lock()` and its interrupts are on,
the member still says so. -/
def Saved (s : IrqQueue τ) : Prop := s.handler s.cpu.current = none →
  ∀ use, s.cpu.pc s.cpu.current = .lockTest use → s.irqs s.cpu.current = true →
    s.irqsWereEnabled = true

/-- The invariant of all runs without an interrupt between the release of the lock and the
switch, in which `lock()` switches the interrupts off. -/
structure Orderly (s : IrqQueue τ) : Prop where
  alone : ∀ t, critical (s.cpu.pc t) = true →
    s.cpu.current = t ∧ s.handler t = none ∧ s.irqs t = false
  off : ∀ t, unscheduled (s.cpu.pc t) = true →
    s.cpu.current = t ∧ s.handler t = none ∧ s.cpu.schedEnable = false
  dozes : ∀ t, dozing (s.cpu.pc t) = true → s.cpu.state t = .sleeping
  listed : ∀ t, subscribing (s.cpu.pc t) = true → t ∈ s.readSubscribers
  subscribed : ∀ t ∈ s.readSubscribers,
    subscribing (s.cpu.pc t) = true ∨ maySleep (s.cpu.pc t) = true ∧ s.cpu.state t = .sleeping
  nodup : s.readSubscribers.Nodup
  popped : ∀ u t, s.Popped u t →
    s.cpu.state t = .sleeping ∧ t ∉ s.readSubscribers ∧ s.cpu.current ≠ t
  once : ∀ u v t, s.Popped u t → s.Popped v t → u = v
  sleeping : ∀ t, s.cpu.state t = .sleeping → t ∈ s.readSubscribers ∨ ∃ u, s.Popped u t
  enabled : s.cpu.schedEnable = false → unscheduled (s.cpu.pc s.cpu.current) = true
  current : s.cpu.state s.cpu.current = .sleeping → mayDoze (s.cpu.pc s.cpu.current) = true
  host : ∀ u, s.handler u ≠ none → s.cpu.state u ≠ .sleeping ∧ s.irqs u = false

omit [DecidableEq τ] in
theorem orderly_init (buffer : ℕ → UInt8) (current : τ) : Orderly (init buffer current) := by
  constructor <;> simp [init, Cpu.init, Popped]

variable {s s' : IrqQueue τ} {t u : τ} {p : IrqPc} {h : HandlerPc τ}

theorem unscheduled_eq_false (hready : mayDoze p = false) (hold : subscribing p = false) :
    unscheduled p = false := by
  cases p <;> simp_all

theorem critical_of_subscribing (hp : subscribing p = true) : critical p = true := by
  cases p <;> simp_all

theorem unscheduled_of_dozing (hp : dozing p = true) : unscheduled p = true := by
  cases p <;> simp_all

namespace Orderly

omit [DecidableEq τ] in
theorem awake (ho : Orderly s) (hp : mayDoze (s.cpu.pc s.cpu.current) = false) :
    s.cpu.state s.cpu.current ≠ .sleeping := by
  intro hst
  rw [ho.current hst] at hp
  cases hp

omit [DecidableEq τ] in
theorem current_not_mem (ho : Orderly s) (hp : subscribing (s.cpu.pc s.cpu.current) = false)
    (hst : s.cpu.state s.cpu.current ≠ .sleeping) : s.cpu.current ∉ s.readSubscribers := by
  intro hmem
  rcases ho.subscribed _ hmem with hs | ⟨-, hs⟩
  · rw [hp] at hs
    cases hs
  · exact hst hs

omit [DecidableEq τ] in
theorem schedEnable (ho : Orderly s) (hp : unscheduled (s.cpu.pc s.cpu.current) = false) :
    s.cpu.schedEnable ≠ false := by
  intro hsched
  rw [ho.enabled hsched] at hp
  cases hp

omit [DecidableEq τ] in
theorem current_mem (ho : Orderly s) (hst : s.cpu.state s.cpu.current = .sleeping) :
    s.cpu.current ∈ s.readSubscribers := by
  rcases ho.sleeping _ hst with hmem | ⟨v, hv⟩
  · exact hmem
  · exact absurd rfl (ho.popped v _ hv).2.2

/-- The current task makes a step below its handler. -/
theorem taskMove {x : TaskState} {b : Bool} (ho : Orderly s)
    (hnone : s.handler s.cpu.current = none) (hhandler : s'.handler = s.handler)
    (hcur : s'.cpu.current = s.cpu.current)
    (hpc : s'.cpu.pc = Function.update s.cpu.pc s.cpu.current p)
    (hstate : s'.cpu.state = Function.update s.cpu.state s.cpu.current x)
    (hirqs : s'.irqs = Function.update s.irqs s.cpu.current b)
    (hsub : s'.readSubscribers = s.readSubscribers ∨ s.cpu.current ∉ s.readSubscribers ∧
      s'.readSubscribers = s.readSubscribers ++ [s.cpu.current])
    (hcritical : critical p = true → b = false)
    (hunscheduled : s'.cpu.schedEnable = false ↔ unscheduled p = true)
    (hdozing : dozing p = true → x = .sleeping)
    (hsubscribing : subscribing p = true → s.cpu.current ∈ s'.readSubscribers)
    (hsubscribed : s.cpu.current ∈ s'.readSubscribers →
      subscribing p = true ∨ maySleep p = true ∧ x = .sleeping)
    (hsleeping : x = .sleeping → s.cpu.current ∈ s'.readSubscribers ∧ mayDoze p = true) :
    Orderly s' := by
  have hpopped : ∀ v t, s'.Popped v t ↔ s.Popped v t := by
    intro v t
    rw [Popped, Popped, hhandler]
  have hmem : ∀ t, t ≠ s.cpu.current → (t ∈ s'.readSubscribers ↔ t ∈ s.readSubscribers) := by
    intro t ht
    rcases hsub with hsub | ⟨-, hsub⟩ <;> simp [hsub, ht]
  have hne : ∀ v t, s.Popped v t → t ≠ s.cpu.current :=
    fun v t hv => ((ho.popped v t hv).2.2).symm
  constructor
  case nodup =>
    rcases hsub with hsub | ⟨hnot, hsub⟩
    · rw [hsub]
      exact ho.nodup
    · rw [hsub, ← List.concat_eq_append]
      exact List.Nodup.concat hnot ho.nodup
  case once =>
    intro v w t hv hw
    exact ho.once v w t ((hpopped v t).mp hv) ((hpopped w t).mp hw)
  case alone =>
    intro t ht
    rw [hcur, hhandler, hirqs]
    rw [hpc] at ht
    rcases eq_or_ne t s.cpu.current with rfl | htc
    · rw [Function.update_self] at ht ⊢
      exact ⟨rfl, hnone, hcritical ht⟩
    · rw [Function.update_of_ne htc] at ht
      exact absurd (ho.alone t ht).1.symm htc
  case off =>
    intro t ht
    rw [hcur, hhandler]
    rw [hpc] at ht
    rcases eq_or_ne t s.cpu.current with rfl | htc
    · rw [Function.update_self] at ht
      exact ⟨rfl, hnone, hunscheduled.mpr ht⟩
    · rw [Function.update_of_ne htc] at ht
      exact absurd (ho.off t ht).1.symm htc
  case dozes =>
    intro t ht
    rw [hpc] at ht
    rw [hstate]
    rcases eq_or_ne t s.cpu.current with rfl | htc
    · rw [Function.update_self] at ht ⊢
      exact hdozing ht
    · rw [Function.update_of_ne htc] at ht ⊢
      exact ho.dozes t ht
  case listed =>
    intro t ht
    rw [hpc] at ht
    rcases eq_or_ne t s.cpu.current with rfl | htc
    · rw [Function.update_self] at ht
      exact hsubscribing ht
    · rw [Function.update_of_ne htc] at ht
      exact (hmem t htc).mpr (ho.listed t ht)
  case subscribed =>
    intro t ht
    rw [hpc, hstate]
    rcases eq_or_ne t s.cpu.current with rfl | htc
    · rw [Function.update_self, Function.update_self]
      exact hsubscribed ht
    · rw [Function.update_of_ne htc, Function.update_of_ne htc]
      exact ho.subscribed t ((hmem t htc).mp ht)
  case popped =>
    intro v t hv
    rw [hpopped] at hv
    obtain ⟨hst, hnot, -⟩ := ho.popped v t hv
    have htc := hne v t hv
    rw [hstate, hcur, Function.update_of_ne htc, hmem t htc]
    exact ⟨hst, hnot, htc.symm⟩
  case sleeping =>
    intro t ht
    rw [hstate] at ht
    rcases eq_or_ne t s.cpu.current with rfl | htc
    · rw [Function.update_self] at ht
      exact .inl (hsleeping ht).1
    · rw [Function.update_of_ne htc] at ht
      simp only [hpopped, hmem t htc]
      exact ho.sleeping t ht
  case enabled =>
    intro hsched
    rw [hcur, hpc, Function.update_self]
    exact hunscheduled.mp hsched
  case current =>
    intro ht
    rw [hcur, hstate, Function.update_self] at ht
    rw [hcur, hpc, Function.update_self]
    exact (hsleeping ht).2
  case host =>
    intro v hv
    rw [hhandler] at hv
    have hvc : v ≠ s.cpu.current := by
      rintro rfl
      exact hv hnone
    rw [hstate, hirqs, Function.update_of_ne hvc, Function.update_of_ne hvc]
    exact ho.host v hv

theorem taskAwake {b : Bool} (ho : Orderly s) (hnone : s.handler s.cpu.current = none)
    (hhandler : s'.handler = s.handler) (hcur : s'.cpu.current = s.cpu.current)
    (hpc : s'.cpu.pc = Function.update s.cpu.pc s.cpu.current p)
    (hstate : s'.cpu.state = s.cpu.state)
    (hirqs : s'.irqs = Function.update s.irqs s.cpu.current b)
    (hsub : s'.readSubscribers = s.readSubscribers)
    (hsched : s'.cpu.schedEnable = s.cpu.schedEnable)
    (hready : mayDoze (s.cpu.pc s.cpu.current) = false)
    (hold : subscribing (s.cpu.pc s.cpu.current) = false)
    (hcritical : critical p = true → b = false)
    (hunscheduled : unscheduled p = false) (hdozing : dozing p = false)
    (hsubscribing : subscribing p = false) : Orderly s' := by
  have hawake := ho.awake hready
  have hnot := ho.current_not_mem hold hawake
  refine ho.taskMove (x := s.cpu.state s.cpu.current) (b := b) hnone hhandler hcur hpc
    (by rw [hstate, Function.update_eq_self]) hirqs (.inl hsub) hcritical ?_ ?_ ?_ ?_
    (fun hst => absurd hst hawake)
  · rw [hsched, hunscheduled]
    exact iff_of_false (ho.schedEnable (unscheduled_eq_false hready hold)) nofun
  · rw [hdozing]
    nofun
  · rw [hsubscribing]
    nofun
  · rw [hsub]
    exact fun hmem => absurd hmem hnot

theorem taskGoto (ho : Orderly s) (hnone : s.handler s.cpu.current = none)
    (hhandler : s'.handler = s.handler) (hcur : s'.cpu.current = s.cpu.current)
    (hpc : s'.cpu.pc = Function.update s.cpu.pc s.cpu.current p)
    (hstate : s'.cpu.state = s.cpu.state) (hirqs : s'.irqs = s.irqs)
    (hsub : s'.readSubscribers = s.readSubscribers)
    (hsched : s'.cpu.schedEnable = s.cpu.schedEnable)
    (hready : mayDoze (s.cpu.pc s.cpu.current) = false)
    (hold : subscribing (s.cpu.pc s.cpu.current) = false)
    (hcritical : critical p = true → critical (s.cpu.pc s.cpu.current) = true)
    (hunscheduled : unscheduled p = false) (hdozing : dozing p = false)
    (hsubscribing : subscribing p = false) : Orderly s' :=
  ho.taskAwake (b := s.irqs s.cpu.current) hnone hhandler hcur hpc hstate
    (by rw [hirqs, Function.update_eq_self]) hsub hsched hready hold
    (fun hp => (ho.alone _ (hcritical hp)).2.2) hunscheduled hdozing hsubscribing

theorem taskEnter (ho : Orderly s) (hnone : s.handler s.cpu.current = none)
    (hhandler : s'.handler = s.handler) (hcur : s'.cpu.current = s.cpu.current)
    (hpc : s'.cpu.pc = Function.update s.cpu.pc s.cpu.current p)
    (hstate : s'.cpu.state = s.cpu.state)
    (hirqs : s'.irqs = Function.update s.irqs s.cpu.current false)
    (hsub : s'.readSubscribers = s.readSubscribers)
    (hsched : s'.cpu.schedEnable = s.cpu.schedEnable)
    (hready : mayDoze (s.cpu.pc s.cpu.current) = false)
    (hold : subscribing (s.cpu.pc s.cpu.current) = false) (hunscheduled : unscheduled p = false)
    (hdozing : dozing p = false) (hsubscribing : subscribing p = false) : Orderly s' :=
  ho.taskAwake hnone hhandler hcur hpc hstate hirqs hsub hsched hready hold (fun _ => rfl)
    hunscheduled hdozing hsubscribing

/-- The current task switches its interrupts on again. -/
theorem restoreIrqs (ho : Orderly s) (hnone : s.handler s.cpu.current = none)
    (hcritical : critical p = false)
    (hunscheduled : s.cpu.schedEnable = false ↔ unscheduled p = true)
    (hdozing : dozing p = true → s.cpu.state s.cpu.current = .sleeping)
    (hsubscribing : subscribing p = false)
    (hsubscribed : s.cpu.current ∈ s.readSubscribers →
      maySleep p = true ∧ s.cpu.state s.cpu.current = .sleeping)
    (hsleeping : s.cpu.state s.cpu.current = .sleeping → mayDoze p = true) :
    Orderly (s.restoreIrqs.goto p) := by
  obtain ⟨b, hb⟩ := exists_restoreIrqs s
  rw [hb]
  refine ho.taskMove (p := p) (x := s.cpu.state s.cpu.current) (b := b) hnone rfl rfl rfl ?_ rfl
    (.inl rfl) ?_ hunscheduled hdozing ?_ (fun hmem => .inr (hsubscribed hmem)) ?_
  · rw [Function.update_eq_self]
    rfl
  · rw [hcritical]
    nofun
  · rw [hsubscribing]
    nofun
  · intro hst
    exact ⟨ho.current_mem hst, hsleeping hst⟩

theorem exec_lockTest {use : LockUse} (ho : Orderly s) (hnone : s.handler s.cpu.current = none)
    (hp : s.cpu.pc s.cpu.current = .lockTest use) (hok : s.Saved)
    (hs : s.execTask (.lockTest use) = some s') : Orderly s' := by
  cases hs
  split_ifs with hsaved
  · exact ho.taskGoto hnone rfl rfl rfl rfl rfl rfl rfl (by simp [hp]) (by simp [hp])
      (by rintro ⟨⟩) rfl rfl rfl
  · have hoff : s.irqs s.cpu.current = false :=
      Bool.eq_false_iff.mpr fun hon => hsaved (hok hnone use hp hon)
    refine ho.taskEnter hnone rfl rfl rfl rfl ?_ rfl rfl (by simp [hp]) (by simp [hp]) rfl rfl rfl
    rw [← hoff, Function.update_eq_self]
    rfl

theorem exec_readPush {len : ℕ} (ho : Orderly s) (hnone : s.handler s.cpu.current = none)
    (hp : s.cpu.pc s.cpu.current = .readPush len)
    (hs : s.execTask (.readPush len) = some s') : Orderly s' := by
  cases hs
  have hawake := ho.awake (by simp [hp])
  have hnot := ho.current_not_mem (by simp [hp]) hawake
  have hoff := (ho.alone s.cpu.current (by simp [hp])).2.2
  refine ho.taskMove (x := s.cpu.state s.cpu.current) (b := s.irqs s.cpu.current) hnone rfl rfl rfl
    (Function.update_eq_self _ _).symm (Function.update_eq_self _ _).symm (.inr ⟨hnot, rfl⟩)
    (fun _ => hoff) ?_ (by rintro ⟨⟩) ?_ (fun _ => .inl rfl) (fun hst => absurd hst hawake)
  · exact iff_of_false (ho.schedEnable (by simp [hp])) (by rintro ⟨⟩)
  · intro _
    simp [goto]

theorem exec_readDisable {len : ℕ} (ho : Orderly s) (hnone : s.handler s.cpu.current = none)
    (hp : s.cpu.pc s.cpu.current = .readDisable len)
    (hs : s.execTask (.readDisable len) = some s') : Orderly s' := by
  cases hs
  have hawake := ho.awake (by simp [hp])
  have hmem := ho.listed s.cpu.current (by simp [hp])
  have hoff := (ho.alone s.cpu.current (by simp [hp])).2.2
  exact ho.taskMove (x := s.cpu.state s.cpu.current) (b := s.irqs s.cpu.current) hnone rfl rfl rfl
    (Function.update_eq_self _ _).symm (Function.update_eq_self _ _).symm (.inl rfl)
    (fun _ => hoff) (iff_of_true rfl rfl) (by rintro ⟨⟩) (fun _ => hmem) (fun _ => .inl rfl)
    (fun hst => absurd hst hawake)

theorem exec_readSleep {len : ℕ} (ho : Orderly s) (hnone : s.handler s.cpu.current = none)
    (hp : s.cpu.pc s.cpu.current = .readSleep len)
    (hs : s.execTask (.readSleep len) = some s') : Orderly s' := by
  simp only [IrqQueue.execTask, Option.ite_none_right_eq_some, Option.some.injEq] at hs
  obtain ⟨-, rfl⟩ := hs
  have hmem := ho.listed s.cpu.current (by simp [hp])
  have hoff := (ho.alone s.cpu.current (by simp [hp])).2.2
  have hsched := (ho.off s.cpu.current (by simp [hp])).2.2
  exact ho.taskMove (x := .sleeping) (b := s.irqs s.cpu.current) hnone rfl rfl rfl rfl
    (Function.update_eq_self _ _).symm (.inl rfl) (fun _ => hoff) (iff_of_true hsched rfl)
    (fun _ => rfl)
    (by rintro ⟨⟩) (fun _ => .inr ⟨rfl, rfl⟩) (fun _ => ⟨hmem, rfl⟩)

theorem exec_readRelease {len : ℕ} (ho : Orderly s) (hnone : s.handler s.cpu.current = none)
    (hp : s.cpu.pc s.cpu.current = .readRelease len)
    (hs : s.execTask (.readRelease len) = some s') : Orderly s' := by
  obtain ⟨s₁, hs₁, rfl⟩ := Option.map_eq_some_iff.mp hs
  obtain ⟨-, rfl⟩ := clearLocked_eq_some.mp hs₁
  have hst := ho.dozes s.cpu.current (by simp [hp])
  have hmem := ho.current_mem hst
  have hoff := (ho.alone s.cpu.current (by simp [hp])).2.2
  have hsched := (ho.off s.cpu.current (by simp [hp])).2.2
  exact ho.taskMove (x := s.cpu.state s.cpu.current) (b := s.irqs s.cpu.current) hnone rfl rfl rfl
    (Function.update_eq_self _ _).symm (Function.update_eq_self _ _).symm (.inl rfl)
    (fun _ => hoff) (iff_of_true hsched rfl) (fun _ => hst) (by rintro ⟨⟩)
    (fun _ => .inr ⟨rfl, hst⟩) (fun _ => ⟨hmem, rfl⟩)

theorem exec_readReleased {len : ℕ} (ho : Orderly s) (hnone : s.handler s.cpu.current = none)
    (hp : s.cpu.pc s.cpu.current = .readReleased len)
    (hs : s.execTask (.readReleased len) = some s') : Orderly s' := by
  cases hs
  have hst := ho.dozes s.cpu.current (by simp [hp])
  have hsched := (ho.off s.cpu.current (by simp [hp])).2.2
  exact ho.restoreIrqs hnone rfl (iff_of_true hsched rfl) (fun _ => hst) rfl
    (fun _ => ⟨rfl, hst⟩) (fun _ => rfl)

theorem exec_readEnable {len : ℕ} (ho : Orderly s) (hnone : s.handler s.cpu.current = none)
    (hp : s.cpu.pc s.cpu.current = .readEnable len)
    (hs : s.execTask (.readEnable len) = some s') : Orderly s' := by
  cases hs
  have hst := ho.dozes s.cpu.current (by simp [hp])
  have hmem := ho.current_mem hst
  exact ho.taskMove (x := s.cpu.state s.cpu.current) (b := s.irqs s.cpu.current) hnone rfl rfl rfl
    (Function.update_eq_self _ _).symm (Function.update_eq_self _ _).symm (.inl rfl)
    (by rintro ⟨⟩) (iff_of_false (by rintro ⟨⟩) (by rintro ⟨⟩)) (by rintro ⟨⟩) (by rintro ⟨⟩)
    (fun _ => .inr ⟨rfl, hst⟩) (fun _ => ⟨hmem, rfl⟩)

theorem exec_readLoop {len : ℕ} (ho : Orderly s) (hnone : s.handler s.cpu.current = none)
    (hp : s.cpu.pc s.cpu.current = .readLoop len)
    (hs : s.execTask (.readLoop len) = some s') : Orderly s' := by
  cases len with
  | zero =>
    cases hs
    exact ho.taskGoto hnone rfl rfl rfl rfl rfl rfl rfl (by simp [hp]) (by simp [hp])
      (by simp [hp]) rfl rfl rfl
  | succ len =>
    simp only [IrqQueue.execTask] at hs
    split_ifs at hs
    · obtain ⟨⟨c, q⟩, -, rfl⟩ := Option.map_eq_some_iff.mp hs
      exact ho.taskGoto hnone rfl rfl rfl rfl rfl rfl rfl (by simp [hp]) (by simp [hp])
        (by simp [hp]) rfl rfl rfl
    · cases hs
      exact ho.taskGoto hnone rfl rfl rfl rfl rfl rfl rfl (by simp [hp]) (by simp [hp])
        (by simp [hp]) rfl rfl rfl

theorem exec_readUnlocked (ho : Orderly s) (hnone : s.handler s.cpu.current = none)
    (hp : s.cpu.pc s.cpu.current = .readUnlocked)
    (hs : s.execTask .readUnlocked = some s') : Orderly s' := by
  cases hs
  have hawake := ho.awake (by simp [hp])
  have hnot := ho.current_not_mem (by simp [hp]) hawake
  refine ho.restoreIrqs hnone rfl ?_ (by rintro ⟨⟩) rfl (fun hmem => absurd hmem hnot)
    (fun hst => absurd hst hawake)
  exact iff_of_false (ho.schedEnable (by simp [hp])) (by rintro ⟨⟩)

/-- The instructions of a task keep the list in order. -/
theorem execTask (ho : Orderly s) (hnone : s.handler s.cpu.current = none)
    (hp : s.cpu.pc s.cpu.current = p) (hok : s.Saved) (hs : s.execTask p = some s') :
    Orderly s' := by
  cases p with
  | out | heapYield use | readYield len => cases hs
  | heapXchg use =>
    cases hs
    split_ifs
    all_goals
      exact ho.taskGoto hnone rfl rfl rfl rfl rfl rfl rfl (by simp [hp]) (by simp [hp])
        (by rintro ⟨⟩) rfl rfl rfl
  | heapHold use =>
    simp only [IrqQueue.execTask, Option.ite_none_right_eq_some, Option.some.injEq] at hs
    obtain ⟨-, rfl⟩ := hs
    cases use
    all_goals
      exact ho.taskGoto hnone rfl rfl rfl rfl rfl rfl rfl (by simp [hp]) (by simp [hp])
        (by rintro ⟨⟩) rfl rfl rfl
  | readTest len =>
    cases hs
    split_ifs
    all_goals
      exact ho.taskGoto hnone rfl rfl rfl rfl rfl rfl rfl (by simp [hp]) (by simp [hp])
        (by rintro ⟨⟩) rfl rfl rfl
  | readLock len | readScope len =>
    cases hs
    exact ho.taskGoto hnone rfl rfl rfl rfl rfl rfl rfl (by simp [hp]) (by simp [hp])
      (by rintro ⟨⟩) rfl rfl rfl
  | lockTest use => exact ho.exec_lockTest hnone hp hok hs
  | lockCli use =>
    cases hs
    exact ho.taskEnter hnone rfl rfl rfl rfl rfl rfl rfl (by simp [hp]) (by simp [hp]) rfl rfl rfl
  | lockSet use =>
    cases hs
    have hoff := (ho.alone s.cpu.current (by simp [hp])).2.2
    cases use
    all_goals
      exact ho.taskGoto hnone rfl rfl rfl rfl rfl rfl rfl (by simp [hp]) (by simp [hp])
        (by simp [hp]) rfl rfl rfl
  | readPush len => exact ho.exec_readPush hnone hp hs
  | readDisable len => exact ho.exec_readDisable hnone hp hs
  | readSleep len => exact ho.exec_readSleep hnone hp hs
  | readRelease len => exact ho.exec_readRelease hnone hp hs
  | readReleased len => exact ho.exec_readReleased hnone hp hs
  | readEnable len => exact ho.exec_readEnable hnone hp hs
  | readLoop len => exact ho.exec_readLoop hnone hp hs
  | readUnlock =>
    obtain ⟨s₁, hs₁, rfl⟩ := Option.map_eq_some_iff.mp hs
    obtain ⟨-, rfl⟩ := clearLocked_eq_some.mp hs₁
    exact ho.taskGoto hnone rfl rfl rfl rfl rfl rfl rfl (by simp [hp]) (by simp [hp])
      (by simp [hp]) rfl rfl rfl
  | readUnlocked => exact ho.exec_readUnlocked hnone hp hs

theorem leave (ho : Orderly s) (hnone : s.handler s.cpu.current = none)
    (hp : s.cpu.pc s.cpu.current = .out) : Orderly ((s.goto .out).setIrqs true) := by
  have hawake := ho.awake (by simp [hp])
  have hnot := ho.current_not_mem (by simp [hp]) hawake
  exact ho.taskMove (p := .out) (x := s.cpu.state s.cpu.current) (b := true) hnone rfl rfl rfl
    (Function.update_eq_self _ _).symm rfl (.inl rfl) (by rintro ⟨⟩)
    (iff_of_false (ho.schedEnable (by simp [hp])) (by rintro ⟨⟩)) (by rintro ⟨⟩) (by rintro ⟨⟩)
    (fun hmem => absurd hmem hnot) (fun hst => absurd hst hawake)

omit [DecidableEq τ] in
theorem of_handler (ho : Orderly s) (hh : s.handler s.cpu.current = some h) (t : τ) :
    critical (s.cpu.pc t) ≠ true ∧ unscheduled (s.cpu.pc t) ≠ true := by
  constructor
  · intro hc
    obtain ⟨rfl, hnone, -⟩ := ho.alone t hc
    simp [hh] at hnone
  · intro hc
    obtain ⟨rfl, hnone, -⟩ := ho.off t hc
    simp [hh] at hnone

/-- The handler on top of the current task makes a step that concerns no other task. -/
theorem handlerMove {g : Option (HandlerPc τ)} (ho : Orderly s)
    (hh : s.handler s.cpu.current = some h)
    (hhandler : s'.handler = Function.update s.handler s.cpu.current g) (hcpu : s'.cpu = s.cpu)
    (hirqs : ∀ v, v ≠ s.cpu.current → s'.irqs v = s.irqs v)
    (hoff : g ≠ none → s'.irqs s.cpu.current = false)
    (hsub : s'.readSubscribers = s.readSubscribers) (hitem : g.bind item = item h) :
    Orderly s' := by
  have hfree := ho.of_handler hh
  have hpopped : ∀ v t, s'.Popped v t ↔ s.Popped v t := by
    intro v t
    rw [Popped, Popped, hhandler]
    rcases eq_or_ne v s.cpu.current with rfl | hne
    · rw [Function.update_self, hitem, hh]
      rfl
    · rw [Function.update_of_ne hne]
  constructor
  case alone =>
    intro t ht
    rw [hcpu] at ht
    exact absurd ht (hfree t).1
  case off =>
    intro t ht
    rw [hcpu] at ht
    exact absurd ht (hfree t).2
  case dozes => rw [hcpu]; exact ho.dozes
  case listed => rw [hcpu, hsub]; exact ho.listed
  case subscribed => rw [hcpu, hsub]; exact ho.subscribed
  case nodup => rw [hsub]; exact ho.nodup
  case popped => simp only [hpopped, hcpu, hsub]; exact ho.popped
  case once => simp only [hpopped]; exact ho.once
  case sleeping => simp only [hpopped, hcpu, hsub]; exact ho.sleeping
  case enabled => rw [hcpu]; exact ho.enabled
  case current => rw [hcpu]; exact ho.current
  case host =>
    intro v hv
    rw [hhandler] at hv
    rw [hcpu]
    rcases eq_or_ne v s.cpu.current with rfl | hne
    · rw [Function.update_self] at hv
      exact ⟨(ho.host _ (by simp [hh])).1, hoff hv⟩
    · rw [Function.update_of_ne hne] at hv
      rw [hirqs v hne]
      exact ho.host v hv

/-- The handler takes the first subscriber off the list. -/
theorem pop {task : τ} {tasks : List τ} (ho : Orderly s)
    (hh : s.handler s.cpu.current = some .pop) (hlist : s.readSubscribers = task :: tasks) :
    Orderly ({ s with readSubscribers := tasks }.setHandler (some (.heapXchg task))) := by
  have hfree := ho.of_handler hh
  have hnodup := ho.nodup
  rw [hlist, List.nodup_cons] at hnodup
  have hmem : ∀ t, t ∈ tasks → t ∈ s.readSubscribers := by
    intro t ht
    rw [hlist]
    exact List.mem_cons_of_mem task ht
  have hsleeps : s.cpu.state task = .sleeping := by
    rcases ho.subscribed task (by rw [hlist]; exact List.mem_cons_self) with hs | ⟨-, hs⟩
    · exact absurd (critical_of_subscribing hs) (hfree task).1
    · exact hs
  have hne : s.cpu.current ≠ task := by
    rintro rfl
    exact (ho.host _ (by simp [hh])).1 hsleeps
  have hpopped : ∀ v t, Popped ({ s with readSubscribers := tasks }.setHandler
      (some (.heapXchg task))) v t ↔ v = s.cpu.current ∧ t = task ∨ s.Popped v t := by
    intro v t
    rw [Popped, Popped, setHandler]
    rcases eq_or_ne v s.cpu.current with rfl | hvc
    · simp [hh, eq_comm]
    · simp [hvc]
  constructor
  case alone => exact fun t ht => absurd ht (hfree t).1
  case off => exact fun t ht => absurd ht (hfree t).2
  case dozes => exact ho.dozes
  case listed => exact fun t ht => absurd (critical_of_subscribing ht) (hfree t).1
  case subscribed => exact fun t ht => ho.subscribed t (hmem t ht)
  case nodup => exact hnodup.2
  case popped =>
    intro v t hv
    rcases (hpopped v t).mp hv with ⟨-, rfl⟩ | hv
    · exact ⟨hsleeps, hnodup.1, hne⟩
    · obtain ⟨hst, hnot, hcur⟩ := ho.popped v t hv
      exact ⟨hst, fun ht => hnot (hmem t ht), hcur⟩
  case once =>
    intro v w t hv hw
    have hnot : ∀ x, ¬ s.Popped x task := fun x hx =>
      (ho.popped x task hx).2.1 (by rw [hlist]; exact List.mem_cons_self)
    rcases (hpopped v t).mp hv with ⟨rfl, rfl⟩ | hv <;>
      rcases (hpopped w t).mp hw with ⟨rfl, ht⟩ | hw
    · rfl
    · exact absurd hw (hnot w)
    · exact absurd hv (ht ▸ hnot v)
    · exact ho.once v w t hv hw
  case sleeping =>
    intro t ht
    rcases ho.sleeping t ht with hin | ⟨v, hv⟩
    · rw [hlist, List.mem_cons] at hin
      rcases hin with rfl | hin
      · exact .inr ⟨s.cpu.current, (hpopped _ _).mpr (.inl ⟨rfl, rfl⟩)⟩
      · exact .inl hin
    · exact .inr ⟨v, (hpopped _ _).mpr (.inr hv)⟩
  case enabled => exact ho.enabled
  case current => exact ho.current
  case host =>
    intro v hv
    refine ho.host v fun hnone => hv ?_
    dsimp only [setHandler]
    rw [Function.update_of_ne, hnone]
    rintro rfl
    simp [hh] at hnone

/-- The handler wakes up the task that it has taken off the list. -/
theorem resume {task : τ} (ho : Orderly s) (hh : s.handler s.cpu.current = some (.resume task)) :
    Orderly ({ s with cpu := s.cpu.setState task .running }.setHandler (some .pop)) := by
  have hfree := ho.of_handler hh
  obtain ⟨hst, hnot, hne⟩ := ho.popped s.cpu.current task (by simp [Popped, hh])
  have hpopped : ∀ v t, Popped ({ s with cpu := s.cpu.setState task .running }.setHandler
      (some .pop)) v t ↔ s.Popped v t ∧ t ≠ task := by
    intro v t
    rw [Popped, Popped, setHandler]
    rcases eq_or_ne v s.cpu.current with rfl | hvc
    · simp [hh, eq_comm]
    · simp only [Cpu.setState_current, Function.update_of_ne hvc]
      refine ⟨fun hv => ⟨hv, ?_⟩, And.left⟩
      rintro rfl
      exact hvc (ho.once v _ t hv (by simp [Popped, hh]))
  constructor
  case alone => exact fun t ht => absurd ht (hfree t).1
  case off => exact fun t ht => absurd ht (hfree t).2
  case dozes => exact fun t ht => absurd (unscheduled_of_dozing ht) (hfree t).2
  case listed => exact ho.listed
  case subscribed =>
    intro t ht
    have htt : t ≠ task := by
      rintro rfl
      exact hnot ht
    simpa [setHandler, htt] using ho.subscribed t ht
  case nodup => exact ho.nodup
  case popped =>
    intro v t hv
    obtain ⟨hv, htt⟩ := (hpopped v t).mp hv
    simpa [setHandler, htt] using ho.popped v t hv
  case once =>
    intro v w t hv hw
    exact ho.once v w t ((hpopped v t).mp hv).1 ((hpopped w t).mp hw).1
  case sleeping =>
    intro t ht
    simp only [setHandler, Cpu.setState_state] at ht
    split_ifs at ht with htt
    rcases ho.sleeping t ht with hin | ⟨v, hv⟩
    · exact .inl hin
    · exact .inr ⟨v, (hpopped v t).mpr ⟨hv, htt⟩⟩
  case enabled => exact ho.enabled
  case current =>
    simp only [setHandler, Cpu.setState_state, Cpu.setState_current, Cpu.setState_pc, if_neg hne]
    exact ho.current
  case host =>
    intro v hv
    have hv' : s.handler v ≠ none := by
      intro hnone
      apply hv
      dsimp only [setHandler]
      rw [Function.update_of_ne, hnone]
      rintro rfl
      simp [hh] at hnone
    obtain ⟨hstate, hirqs⟩ := ho.host v hv'
    refine ⟨?_, hirqs⟩
    simp only [setHandler, Cpu.setState_state]
    split_ifs
    · rintro ⟨⟩
    · exact hstate

theorem execHandler (ho : Orderly s) (hh : s.handler s.cpu.current = some h)
    (hs : s.execHandler h = some s') : Orderly s' := by
  have hoff := (ho.host s.cpu.current (by simp [hh])).2
  cases h with
  | lock buffer =>
    rw [IrqQueue.execHandler, lock_of_off hoff] at hs
    cases hs
    exact ho.handlerMove hh rfl rfl (fun _ _ => rfl) (fun _ => hoff) rfl rfl
  | write buffer =>
    cases buffer with
    | nil =>
      cases hs
      exact ho.handlerMove hh rfl rfl (fun _ _ => rfl) (fun _ => hoff) rfl rfl
    | cons c cs =>
      obtain ⟨q, -, rfl⟩ := Option.map_eq_some_iff.mp hs
      exact ho.handlerMove hh rfl rfl (fun _ _ => rfl) (fun _ => hoff) rfl rfl
  | pop =>
    simp only [IrqQueue.execHandler] at hs
    split at hs
    case h_1 =>
      cases hs
      exact ho.handlerMove hh rfl rfl (fun _ _ => rfl) (fun _ => hoff) rfl rfl
    case h_2 task tasks hlist =>
      cases hs
      exact ho.pop hh hlist
  | heapXchg task =>
    cases hs
    split_ifs
    all_goals exact ho.handlerMove hh rfl rfl (fun _ _ => rfl) (fun _ => hoff) rfl rfl
  | heapHold task =>
    simp only [IrqQueue.execHandler, Option.ite_none_right_eq_some, Option.some.injEq] at hs
    obtain ⟨-, rfl⟩ := hs
    exact ho.handlerMove hh rfl rfl (fun _ _ => rfl) (fun _ => hoff) rfl rfl
  | resume task =>
    obtain ⟨s₁, hs₁, rfl⟩ := Option.map_eq_some_iff.mp hs
    simp only [IrqQueue.resume, Option.ite_none_right_eq_some, Option.some.injEq] at hs₁
    obtain ⟨-, rfl⟩ := hs₁
    exact ho.resume hh
  | unlock =>
    obtain ⟨s₁, hs₁, rfl⟩ := Option.map_eq_some_iff.mp hs
    obtain ⟨b, rfl⟩ := exists_of_unlock hs₁
    refine ho.handlerMove (g := none) hh rfl rfl (fun v hv => ?_) (absurd rfl) rfl rfl
    simp [setIrqs, setHandler, hv]
  | heapYield task => cases hs

/-- The scheduler switches from the current task, which goes on at `p` later. -/
theorem switched {next : τ} (ho : Orderly s) (hnext : s.cpu.state next = .running)
    (hcritical : critical (s.cpu.pc s.cpu.current) = false)
    (hunscheduled : unscheduled (s.cpu.pc s.cpu.current) = false)
    (hsched : s.cpu.schedEnable = true)
    (hp : critical p = false ∧ unscheduled p = false)
    (hsleep : maySleep (s.cpu.pc s.cpu.current) = true → maySleep p = true) :
    Orderly { s with cpu := { s.cpu.goto p with current := next } } := by
  have halone : ∀ t, critical (s.cpu.pc t) ≠ true := by
    intro t ht
    rw [← (ho.alone t ht).1, hcritical] at ht
    cases ht
  have hoff : ∀ t, unscheduled (s.cpu.pc t) ≠ true := by
    intro t ht
    rw [← (ho.off t ht).1, hunscheduled] at ht
    cases ht
  have hpc : ∀ t, critical ((s.cpu.goto p).pc t) ≠ true ∧
      unscheduled ((s.cpu.goto p).pc t) ≠ true := by
    intro t
    rw [Cpu.goto_pc]
    split_ifs
    · simp [hp.1, hp.2, -critical, -unscheduled]
    · exact ⟨halone t, hoff t⟩
  constructor
  case alone => exact fun t ht => absurd ht (hpc t).1
  case off => exact fun t ht => absurd ht (hpc t).2
  case dozes => exact fun t ht => absurd (unscheduled_of_dozing ht) (hpc t).2
  case listed => exact fun t ht => absurd (critical_of_subscribing ht) (hpc t).1
  case subscribed =>
    intro t ht
    rcases ho.subscribed t ht with hs | ⟨hm, hst⟩
    · exact absurd (critical_of_subscribing hs) (halone t)
    · refine .inr ⟨?_, hst⟩
      dsimp only
      rw [Cpu.goto_pc]
      split_ifs with htc
      · exact hsleep (htc ▸ hm)
      · exact hm
  case nodup => exact ho.nodup
  case popped =>
    intro v t hv
    obtain ⟨hst, hnot, -⟩ := ho.popped v t hv
    refine ⟨hst, hnot, ?_⟩
    rintro rfl
    rw [show s.cpu.state _ = _ from hnext] at hst
    cases hst
  case once => exact ho.once
  case sleeping => exact ho.sleeping
  case enabled =>
    intro hfalse
    rw [show s.cpu.schedEnable = false from hfalse] at hsched
    cases hsched
  case current =>
    intro hst
    rw [show s.cpu.state next = .sleeping from hst] at hnext
    cases hnext
  case host => exact ho.host

theorem switchTo {next : τ} (ho : Orderly s)
    (hcritical : critical (s.cpu.pc s.cpu.current) = false)
    (hs : s.switchTo next = some s') : Orderly s' := by
  rw [IrqQueue.switchTo] at hs
  split_ifs at hs with hsched hnext
  · cases hs
    have hunscheduled : unscheduled (s.cpu.pc s.cpu.current) = false := by
      rw [Bool.eq_false_iff]
      intro ht
      rw [(ho.off _ ht).2.2] at hsched
      cases hsched
    have hrun : s.cpu.state next = .running := by
      simpa [Cpu.schedulable, hsched] using hnext
    have hself : { s.cpu with current := next } =
        { s.cpu.goto (s.cpu.pc s.cpu.current) with current := next } := by
      simp [Cpu.goto]
    rw [hself]
    exact ho.switched hrun hcritical hunscheduled hsched ⟨hcritical, hunscheduled⟩ id
  · cases hs
    exact ho

theorem yield {next : τ} (ho : Orderly s) (hs : s.step (.yield next) = some s') : Orderly s' := by
  obtain ⟨s₁, hs₁, hs⟩ := Option.bind_eq_some_iff.mp hs
  rw [yielded] at hs₁
  split at hs₁
  case h_1 task hh =>
    cases hs₁
    have hoff := (ho.host s.cpu.current (by simp [hh])).2
    have ho₁ : Orderly (s.setHandler (some (.heapXchg task))) :=
      ho.handlerMove hh rfl rfl (fun _ _ => rfl) (fun _ => hoff) rfl rfl
    exact ho₁.switchTo (Bool.eq_false_iff.mpr (ho.of_handler hh s.cpu.current).1) hs
  case h_2 use hnone hp =>
    cases hs₁
    have ho₁ : Orderly (s.goto (.heapXchg use)) :=
      ho.taskGoto hnone rfl rfl rfl rfl rfl rfl rfl (by simp [hp]) (by simp [hp]) (by rintro ⟨⟩)
        rfl rfl rfl
    exact ho₁.switchTo (by simp [goto]) hs
  case h_3 len hnone hp =>
    cases hs₁
    have hsched : s.cpu.schedEnable = true := Bool.of_not_eq_false (ho.schedEnable (by simp [hp]))
    simp only [IrqQueue.switchTo, goto, Cpu.goto, hsched, if_true, Cpu.schedulable, Bool.true_and,
      beq_iff_eq, Option.ite_none_right_eq_some, Option.some.injEq] at hs
    obtain ⟨hnext, rfl⟩ := hs
    have ho₁ := ho.switched (p := .readScope len) hnext (by simp [hp]) (by simp [hp]) hsched
      ⟨rfl, rfl⟩ (fun _ => rfl)
    simpa [Cpu.goto, hsched] using ho₁
  case h_4 => cases hs₁

end Orderly

/-- The current task has released the buffer lock in `sleepAndUnlock()`, sleeps, and is not
switched out. -/
def Window (s : IrqQueue τ) : Prop :=
  s.cpu.state s.cpu.current = .sleeping ∧ released (s.cpu.pc s.cpu.current) = true

instance (s : IrqQueue τ) : Decidable s.Window := inferInstanceAs (Decidable (_ ∧ _))

/-- No device interrupts a task there, and no task finds `m_irqsWereEnabled` cleared that it has
set in `lock()`. -/
def Undisturbed (s : IrqQueue τ) : Event τ → Prop
  | .interrupt _ => ¬ s.Window
  | .exec => s.Saved
  | _ => True

/-- The point of `lock()` at which the member is tested. -/
def testing : IrqPc → Bool
  | .lockTest _ => true
  | _ => false

omit [DecidableEq τ] in
theorem saved_iff : s.Saved ↔ (s.handler s.cpu.current = none →
    testing (s.cpu.pc s.cpu.current) = true → s.irqs s.cpu.current = true →
      s.irqsWereEnabled = true) := by
  refine forall_congr' fun _ => ⟨fun h ht => ?_, fun h use hp => h (by rw [hp]; rfl)⟩
  cases hp : s.cpu.pc s.cpu.current <;> simp only [hp, testing, Bool.false_eq_true] at ht
  exact h _ hp

instance (s : IrqQueue τ) : DecidablePred s.Undisturbed
  | .interrupt _ => inferInstanceAs (Decidable (¬ s.Window))
  | .exec => decidable_of_iff _ saved_iff.symm
  | .read _ | .heap | .leave | .yield _ | .preempt _ => isTrue trivial

namespace Orderly

omit [DecidableEq τ] in
theorem window_of_sleeping (ho : Orderly s) (hirqs : s.irqs s.cpu.current = true)
    (hst : s.cpu.state s.cpu.current = .sleeping) : s.Window := by
  refine ⟨hst, ?_⟩
  have hdoze := ho.current hst
  have halone := ho.alone s.cpu.current
  cases hp : s.cpu.pc s.cpu.current <;> simp_all

theorem interrupt {buffer : List UInt8} (ho : Orderly s) (hok : ¬ s.Window)
    (hirqs : s.irqs s.cpu.current = true) :
    Orderly ((s.setIrqs false).setHandler (some (.lock buffer))) := by
  have hawake : s.cpu.state s.cpu.current ≠ .sleeping :=
    fun hst => hok (ho.window_of_sleeping hirqs hst)
  have halone : ∀ t, critical (s.cpu.pc t) ≠ true := by
    intro t ht
    obtain ⟨rfl, -, hoff⟩ := ho.alone t ht
    rw [hirqs] at hoff
    cases hoff
  have hoff : ∀ t, unscheduled (s.cpu.pc t) ≠ true := by
    intro t ht
    obtain ⟨rfl, -, -⟩ := ho.off t ht
    have hdozes := ho.dozes s.cpu.current
    have hcritical := halone s.cpu.current
    cases hp : s.cpu.pc s.cpu.current <;> simp_all
  have hnone : s.handler s.cpu.current = none := by
    by_contra hne
    rw [(ho.host _ hne).2] at hirqs
    cases hirqs
  have hpopped : ∀ v t, Popped ((s.setIrqs false).setHandler (some (.lock buffer))) v t ↔
      s.Popped v t := by
    intro v t
    rw [Popped, Popped, setHandler, setIrqs]
    rcases eq_or_ne v s.cpu.current with rfl | hvc
    · simp [hnone]
    · simp [hvc]
  constructor
  case alone => exact fun t ht => absurd ht (halone t)
  case off => exact fun t ht => absurd ht (hoff t)
  case dozes => exact ho.dozes
  case listed => exact ho.listed
  case subscribed => exact ho.subscribed
  case nodup => exact ho.nodup
  case popped => simp only [hpopped]; exact ho.popped
  case once => simp only [hpopped]; exact ho.once
  case sleeping => simp only [hpopped]; exact ho.sleeping
  case enabled => exact ho.enabled
  case current => exact ho.current
  case host =>
    intro v hv
    rcases eq_or_ne v s.cpu.current with rfl | hvc
    · exact ⟨hawake, by simp [setHandler, setIrqs]⟩
    · simp only [setHandler, setIrqs, Function.update_of_ne hvc] at hv ⊢
      exact ho.host v hv

theorem step {e : Event τ} (ho : Orderly s) (hok : s.Undisturbed e) (hs : s.step e = some s') :
    Orderly s' := by
  cases e with
  | read len | heap =>
    simp only [IrqQueue.step, call, Option.ite_none_right_eq_some, Option.some.injEq] at hs
    obtain ⟨⟨hnone, hp⟩, rfl⟩ := hs
    exact ho.taskGoto hnone rfl rfl rfl rfl rfl rfl rfl (by simp [hp]) (by simp [hp])
      (by rintro ⟨⟩) rfl rfl rfl
  | leave =>
    obtain ⟨s₁, hs₁, rfl⟩ := Option.map_eq_some_iff.mp hs
    rw [call, Option.ite_none_right_eq_some, Option.some.injEq] at hs₁
    obtain ⟨⟨hnone, hp⟩, rfl⟩ := hs₁
    exact ho.leave hnone hp
  | exec =>
    simp only [IrqQueue.step, IrqQueue.exec] at hs
    split at hs
    case h_1 h hh => exact ho.execHandler hh hs
    case h_2 hh => exact ho.execTask hh rfl hok hs
  | yield next => exact ho.yield hs
  | preempt next =>
    simp only [IrqQueue.step, Option.ite_none_right_eq_some] at hs
    refine ho.switchTo ?_ hs.2
    rw [Bool.eq_false_iff]
    intro ht
    rw [(ho.alone _ ht).2.2] at hs
    cases hs.1
  | interrupt buffer =>
    simp only [IrqQueue.step, Option.ite_none_right_eq_some, Option.some.injEq] at hs
    obtain ⟨hirqs, rfl⟩ := hs
    exact ho.interrupt hok hirqs

end Orderly

/-- The subscribers sleep, and the current task is not one of them. -/
def SubscribersSleep (s : IrqQueue τ) : Prop :=
  ∀ t ∈ s.readSubscribers, s.cpu.state t = .sleeping ∧ s.cpu.current ≠ t

/-- In a run in which no device interrupts a task in the window and `lock()` finds what it has
saved, a further interrupt finds all subscribers asleep and not current exactly if it does not come
in the window either, and the assertions of `Task::resume()` hold in every handler. -/
theorem subscribersSleep_iff (buffer : ℕ → UInt8) (current : τ) (s : IrqQueue τ)
    (hr : Run.Reachable step Undisturbed (init buffer current) s) :
    (s.irqs s.cpu.current = true → (s.SubscribersSleep ↔ ¬ s.Window)) ∧
      ∀ task, s.handler s.cpu.current = some (.resume task) →
        s.cpu.state task = .sleeping ∧ s.cpu.current ≠ task := by
  have ho : Orderly s :=
    hr.invariant (orderly_init buffer current) fun _ _ _ ho hok hs => ho.step hok hs
  refine ⟨fun hirqs => ⟨fun hall hw => ?_, fun hw t ht => ?_⟩, fun task hh => ?_⟩
  · exact (hall _ (ho.current_mem hw.1)).2 rfl
  · have hcur : s.cpu.state s.cpu.current ≠ .sleeping :=
      fun hst => hw (ho.window_of_sleeping hirqs hst)
    rcases ho.subscribed t ht with hs | ⟨-, hst⟩
    · obtain ⟨rfl, -, hoff⟩ := ho.alone t (critical_of_subscribing hs)
      rw [hirqs] at hoff
      cases hoff
    · refine ⟨hst, ?_⟩
      rintro rfl
      exact hcur hst
  · obtain ⟨hst, -, hne⟩ := ho.popped s.cpu.current task (by simp [Popped, hh])
    exact ⟨hst, hne⟩

/-- The reader is switched out, and a device interrupts the other task. -/
def wokenReader : List (Event Bool) :=
  sleepingReader ++ Event.interrupt [7] :: List.replicate 6 .exec

theorem subscribersSleep_iff_wokenReader : ∃ s : IrqQueue Bool,
    Run.guardedRun step Undisturbed (init (fun _ => 0) false) wokenReader = some s ∧
      s.handler s.cpu.current = some (.resume false) ∧ s.cpu.state false = .sleeping ∧
      s.cpu.current ≠ false := by
  have hrun : (Run.guardedRun step Undisturbed (init (fun _ => 0) false) wokenReader).map
      (fun s => s.handler s.cpu.current) = some (some (.resume false)) := by
    decide_cbv
  obtain ⟨s, hs, hh⟩ := Option.map_eq_some_iff.mp hrun
  exact ⟨s, hs, hh, (subscribersSleep_iff (fun _ => 0) false s
    (Run.reachable_of_guardedRun hs)).2 false hh⟩

/-- A device interrupts the reader after it has released the buffer lock. -/
def interruptedReader : List (Event Bool) :=
  Event.read 1 :: List.replicate 12 .exec ++ Event.interrupt [7] :: List.replicate 6 .exec

theorem not_forall_subscribersSleep : ¬ ∀ s : IrqQueue Bool,
    Run.Reachable step (fun _ _ => True) (init (fun _ => 0) false) s →
      (s.irqs s.cpu.current = true → s.SubscribersSleep) ∧
        ∀ task, s.handler s.cpu.current = some (.resume task) →
          s.cpu.state task = .sleeping ∧ s.cpu.current ≠ task := by
  intro hall
  have hrun : (interruptedReader.foldlM step (init (fun _ => 0) false)).map
      (fun s => (s.cpu.current, s.handler s.cpu.current)) = some (false, some (.resume false)) := by
    decide_cbv
  obtain ⟨s, hs, heq⟩ := Option.map_eq_some_iff.mp hrun
  rw [Prod.mk.injEq] at heq
  exact ((hall s (Run.reachable_of_foldlM hs)).2 false heq.2).2 heq.1

/-- A device interrupts the reader in `lock()`, before it tests what it has saved. -/
def interruptedLock : List (Event Bool) :=
  Event.read 1 :: List.replicate 4 .exec ++ Event.interrupt [7] :: List.replicate 8 .exec

-- the reader subscribes with the interrupts on
example : (interruptedLock.foldlM step (init (fun _ => 0) false)).map
    (fun s => (s.handler false, s.irqs false, s.readSubscribers, s.cpu.state false)) =
      some (none, true, [false], .running) := by
  decide_cbv

end IrqQueue

end Koerix
