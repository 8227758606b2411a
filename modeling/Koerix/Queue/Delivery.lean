import Koerix.Lib.Owner
import Koerix.Queue.Readers
import Mathlib.Data.Fintype.EquivFin
import Mathlib.Data.List.Nodup

/-! # What a blocking read returns

A reader that finds the queue empty subscribes, sleeps, and copies what is
there when it is woken up, without a second look at `m_available`. The calls
of `read` are followed together with the numbers of bytes they return. A
reader is due when it is going to copy and not on the list of subscribers: it
has seen a byte, or it has been taken off the list. It gets a byte if the
queue stays nonempty as long as a reader is due.
-/

namespace Koerix

namespace Readers

variable {τ : Type*} [DecidableEq τ]

/-- The task has the buffer lock. -/
@[simp] def holding : QueuePc τ → Bool
  | .readPush _ | .readDisable _ | .readSleep _ | .readRelease _ | .readLoop _ | .readUnlock => true
  | .writeLoop _ | .writeWake | .writeResume _ | .writeUnlock => true
  | _ => false

/-- The task is subscribed, and about to sleep. -/
@[simp] def drowsy : QueuePc τ → Bool
  | .readDisable _ | .readSleep _ => true
  | _ => false

/-- Where a subscriber may sleep. -/
@[simp] def maySleep : QueuePc τ → Bool
  | .readRelease _ | .readEnable _ | .readYield _ | .readScope _ => true
  | _ => false

/-- Where the current task may sleep. -/
@[simp] def mayDoze : QueuePc τ → Bool
  | .readRelease _ | .readEnable _ | .readYield _ => true
  | _ => false

/-- The task has subscribed, and has not released the buffer lock. -/
@[simp] def enlisted : QueuePc τ → Bool
  | .readDisable _ | .readSleep _ | .readRelease _ => true
  | _ => false

@[simp] def resuming : QueuePc τ → Bool
  | .writeResume _ => true
  | _ => false

/-- A move from `p₀` to `p` leaves the lock alone, and what the place of the task says about the
list of subscribers. -/
def steady (p₀ p : QueuePc τ) : Bool :=
  holding p == holding p₀ && (!drowsy p₀ || drowsy p) && (!maySleep p₀ || maySleep p) &&
    (!enlisted p || enlisted p₀) && !resuming p && (!mayDoze p₀ || mayDoze p)

omit [DecidableEq τ] in
theorem holding_of_enlisted {p : QueuePc τ} (h : enlisted p = true) : holding p = true := by
  cases p <;> first | rfl | cases h

/-- The lock has one owner, and the subscribers sleep or are about to. -/
structure Seated (s : Readers τ) : Prop where
  lock : Owned (fun p => holding p = true) s.cpu.pc s.bufferLock
  nodup : s.readSubscribers.Nodup
  subscribed : ∀ t ∈ s.readSubscribers, drowsy (s.cpu.pc t) = true ∨
    maySleep (s.cpu.pc t) = true ∧ s.cpu.state t = .sleeping
  enlisted : ∀ t, enlisted (s.cpu.pc t) = true → t ∈ s.readSubscribers
  popped : ∀ u t, s.cpu.pc u = .writeResume t → t ∉ s.readSubscribers
  current : s.cpu.state s.cpu.current = .sleeping → mayDoze (s.cpu.pc s.cpu.current) = true

omit [DecidableEq τ] in
theorem seated_init (buffer : ℕ → UInt8) (current : τ) : Seated (init buffer current) := by
  constructor
  case lock => constructor <;> simp [init, Cpu.init]
  all_goals simp [init, Cpu.init]

variable {s s' : Readers τ} {p : QueuePc τ}

namespace Seated

omit [DecidableEq τ] in
theorem current_not_mem (h : Seated s) (hdrowsy : drowsy (s.cpu.pc s.cpu.current) = false)
    (hdoze : mayDoze (s.cpu.pc s.cpu.current) = false) : s.cpu.current ∉ s.readSubscribers := by
  intro hmem
  rcases h.subscribed _ hmem with hd | ⟨-, hst⟩
  · rw [hdrowsy] at hd
    cases hd
  · rw [h.current hst] at hdoze
    cases hdoze

/-- The current task moves to `p`; it may change the list while it has the lock. -/
theorem move (h : Seated s) (hpc : s'.cpu.pc = Function.update s.cpu.pc s.cpu.current p)
    (hcur : s'.cpu.current = s.cpu.current)
    (hlock : Owned (fun p => holding p = true) s'.cpu.pc s'.bufferLock)
    (hnodup : s'.readSubscribers.Nodup)
    (hstate : ∀ t ∈ s'.readSubscribers, t ≠ s.cpu.current → s'.cpu.state t = s.cpu.state t)
    (hsub : ∀ t, t ≠ s.cpu.current → t ∈ s'.readSubscribers → t ∈ s.readSubscribers)
    (hkeep : ∀ t ∈ s.readSubscribers, t ≠ s.cpu.current →
      t ∈ s'.readSubscribers ∨ holding (s.cpu.pc s.cpu.current) = true)
    (hnew : s.cpu.current ∈ s'.readSubscribers → s.cpu.current ∈ s.readSubscribers ∨
      holding (s.cpu.pc s.cpu.current) = true)
    (hself : s.cpu.current ∈ s'.readSubscribers → drowsy p = true ∨
      maySleep p = true ∧ s'.cpu.state s.cpu.current = .sleeping)
    (henlisted : Readers.enlisted p = true → s.cpu.current ∈ s'.readSubscribers)
    (hpopped : ∀ t, p = .writeResume t → t ∉ s'.readSubscribers)
    (hdoze : s'.cpu.state s.cpu.current = .sleeping → mayDoze p = true) : Seated s' := by
  have halone : ∀ u, u ≠ s.cpu.current → holding (s.cpu.pc u) = true →
      holding (s.cpu.pc s.cpu.current) ≠ true :=
    fun u hu hheld hc => hu (h.lock.unique u _ hheld hc)
  refine ⟨hlock, hnodup, fun t ht => ?_, fun t ht => ?_, fun u t hu => ?_, ?_⟩
  · rcases eq_or_ne t s.cpu.current with rfl | hne
    · rw [hpc, Function.update_self]
      exact hself ht
    · rw [hpc, Function.update_of_ne hne, hstate t ht hne]
      exact h.subscribed t (hsub t hne ht)
  · rcases eq_or_ne t s.cpu.current with rfl | hne
    · rw [hpc, Function.update_self] at ht
      exact henlisted ht
    · rw [hpc, Function.update_of_ne hne] at ht
      have hheld := holding_of_enlisted ht
      exact (hkeep t (h.enlisted t ht) hne).resolve_right (halone t hne hheld)
  · rcases eq_or_ne u s.cpu.current with rfl | hne
    · rw [hpc, Function.update_self] at hu
      exact hpopped t hu
    · rw [hpc, Function.update_of_ne hne] at hu
      have hold := h.popped u t hu
      have hfree := halone u hne (by rw [hu]; rfl)
      intro ht
      rcases eq_or_ne t s.cpu.current with rfl | htc
      · exact (hnew ht).elim hold hfree
      · exact hold (hsub t htc ht)
  · rw [hcur, hpc, Function.update_self]
    exact hdoze

theorem moveTo (h : Seated s) (hpc : s'.cpu.pc = Function.update s.cpu.pc s.cpu.current p)
    (hcur : s'.cpu.current = s.cpu.current) (hstate : s'.cpu.state = s.cpu.state)
    (hsubs : s'.readSubscribers = s.readSubscribers)
    (hlock : Owned (fun p => holding p = true) s'.cpu.pc s'.bufferLock)
    (hdrowsy : drowsy (s.cpu.pc s.cpu.current) = true → drowsy p = true)
    (hsleep : maySleep (s.cpu.pc s.cpu.current) = true →
      s.cpu.state s.cpu.current = .sleeping → maySleep p = true)
    (henlisted : Readers.enlisted p = true →
      Readers.enlisted (s.cpu.pc s.cpu.current) = true)
    (hpopped : ∀ t, p ≠ .writeResume t)
    (hdoze : mayDoze (s.cpu.pc s.cpu.current) = true → mayDoze p = true) : Seated s' := by
  refine h.move hpc hcur hlock (hsubs ▸ h.nodup) (fun _ _ _ => congrFun hstate _) ?_ ?_ ?_ ?_ ?_
    (fun t ht => absurd ht (hpopped t)) ?_
  · exact fun t _ ht => hsubs ▸ ht
  · exact fun t ht _ => .inl (hsubs ▸ ht)
  · exact fun ht => .inl (hsubs ▸ ht)
  · intro ht
    rw [hsubs] at ht
    rw [hstate]
    exact (h.subscribed _ ht).imp hdrowsy fun hs => ⟨hsleep hs.1 hs.2, hs.2⟩
  · intro hp
    rw [hsubs]
    exact h.enlisted _ (henlisted hp)
  · intro hst
    rw [hstate] at hst
    exact hdoze (h.current hst)

theorem goto {p₀ : QueuePc τ} (h : Seated s) (queue : IQueue) (schedEnable : Bool)
    (hp : s.cpu.pc s.cpu.current = p₀) (hmove : steady p₀ p = true) :
    Seated ({ s with queue, cpu := { s.cpu with schedEnable } }.goto p) := by
  simp only [steady, Bool.and_eq_true, beq_iff_eq, Bool.or_eq_true, Bool.not_eq_true',
    ← Bool.not_eq_true, ← imp_iff_not_or] at hmove
  obtain ⟨⟨⟨⟨⟨hhold, hdrowsy⟩, hsleep⟩, henlisted⟩, hresuming⟩, hdoze⟩ := hmove
  subst hp
  refine h.moveTo rfl rfl rfl rfl (h.lock.stay (by rw [hhold])) hdrowsy (fun hs _ => hsleep hs)
    henlisted ?_ hdoze
  rintro t rfl
  exact hresuming rfl

theorem acquire (h : Seated s) (hs : s.acquire p = some s') (hp : holding p = true)
    (hdrowsy : drowsy (s.cpu.pc s.cpu.current) = false)
    (hdoze : mayDoze (s.cpu.pc s.cpu.current) = false)
    (henlisted : Readers.enlisted p = false) (hpopped : ∀ t, p ≠ .writeResume t) : Seated s' := by
  simp only [Readers.acquire, Option.ite_none_left_eq_some, Option.some.injEq] at hs
  obtain ⟨hfree, rfl⟩ := hs
  have hlock := h.lock
  rw [Bool.not_eq_true] at hfree
  rw [hfree] at hlock
  refine h.moveTo rfl rfl rfl rfl (hlock.acquire hp) (by rw [hdrowsy]; rintro ⟨⟩) (fun _ hst => ?_)
    (by rw [henlisted]; rintro ⟨⟩) hpopped (by rw [hdoze]; rintro ⟨⟩)
  rw [h.current hst] at hdoze
  cases hdoze

theorem release (h : Seated s) (hs : s.release p = some s')
    (hheld : holding (s.cpu.pc s.cpu.current) = true) (hp : holding p = false)
    (hdrowsy : drowsy (s.cpu.pc s.cpu.current) = false)
    (hsleep : maySleep (s.cpu.pc s.cpu.current) = true → maySleep p = true)
    (hdoze : mayDoze (s.cpu.pc s.cpu.current) = true → mayDoze p = true) : Seated s' := by
  simp only [Readers.release, Option.ite_none_right_eq_some, Option.some.injEq] at hs
  obtain ⟨-, rfl⟩ := hs
  refine h.moveTo rfl rfl rfl rfl (h.lock.release hheld (by simp only [hp]; rintro ⟨⟩))
    (by rw [hdrowsy]; rintro ⟨⟩) (fun hsl _ => hsleep hsl) (fun he => ?_) ?_ hdoze
  · rw [holding_of_enlisted he] at hp
    cases hp
  · rintro t rfl
    cases hp

theorem readPush {len : ℕ} (h : Seated s) (hp : s.cpu.pc s.cpu.current = .readPush len) :
    Seated ({ s with readSubscribers := s.readSubscribers ++ [s.cpu.current] }.goto
      (.readDisable len)) := by
  have hnot := h.current_not_mem (by rw [hp]; rfl) (by rw [hp]; rfl)
  have hnodup : (s.readSubscribers ++ [s.cpu.current]).Nodup := by
    simpa using List.Nodup.concat hnot h.nodup
  refine h.move rfl rfl (h.lock.stay (by simp [hp])) hnodup (fun _ _ _ => rfl)
    (fun t ht hmem => ?_) (fun t ht _ => ?_) (fun _ => ?_) (fun _ => .inl rfl)
    (fun _ => ?_) (by simp) (fun hst => ?_)
  · simpa [Readers.goto, ht] using hmem
  · exact .inl (List.mem_append_left _ ht)
  · exact .inr (by rw [hp]; rfl)
  · simp [Readers.goto]
  · have hd := h.current hst
    rw [hp] at hd
    cases hd

theorem readSleep {len : ℕ} (h : Seated s) (hp : s.cpu.pc s.cpu.current = .readSleep len) :
    Seated ({ s with cpu := s.cpu.setState s.cpu.current .sleeping }.goto (.readRelease len)) := by
  refine h.move rfl rfl (h.lock.stay (by simp [hp])) h.nodup (fun t _ ht => ?_) (fun _ _ ht => ht)
    (fun _ ht _ => .inl ht) .inl (fun _ => .inr ⟨rfl, ?_⟩) (fun _ => ?_) (by simp) (fun _ => rfl)
  · simp [Readers.goto, ht]
  · simp [Readers.goto]
  · exact h.enlisted _ (by rw [hp]; rfl)

/-- `wakeupSubscribers` takes the first task off the list. -/
theorem pop {task : τ} {tasks : List τ} (h : Seated s)
    (hp : s.cpu.pc s.cpu.current = .writeWake) (hlist : s.readSubscribers = task :: tasks) :
    Seated ({ s with readSubscribers := tasks }.goto (.writeResume task)) := by
  have hnot := h.current_not_mem (by rw [hp]; rfl) (by rw [hp]; rfl)
  have hnodup := h.nodup
  rw [hlist, List.nodup_cons] at hnodup
  rw [hlist, List.mem_cons, not_or] at hnot
  refine h.move rfl rfl (h.lock.stay (by simp [hp])) hnodup.2 (fun _ _ _ => rfl)
    (fun t _ ht => ?_) (fun _ _ _ => ?_) (fun ht => absurd ht hnot.2) (fun ht => absurd ht hnot.2)
    (by simp) ?_ (fun hst => ?_)
  · rw [hlist]
    exact List.mem_cons_of_mem _ ht
  · exact .inr (by rw [hp]; rfl)
  · rintro t ⟨⟩
    exact hnodup.1
  · have hd := h.current hst
    rw [hp] at hd
    cases hd

/-- `resume` of a task that is not on the list. -/
theorem writeResume {task : τ} (h : Seated s)
    (hp : s.cpu.pc s.cpu.current = .writeResume task) :
    Seated ({ s with cpu := s.cpu.setState task .running }.goto .writeWake) := by
  have hnot := h.current_not_mem (by rw [hp]; rfl) (by rw [hp]; rfl)
  have htask := h.popped _ _ hp
  refine h.move rfl rfl (h.lock.stay (by simp [hp])) h.nodup (fun t ht _ => ?_) (fun _ _ ht => ht)
    (fun _ ht _ => .inl ht) .inl (fun ht => absurd ht hnot) (by simp) (by simp) (fun hst => ?_)
  · have hne : t ≠ task := by
      rintro rfl
      exact htask ht
    simp [Readers.goto, hne]
  · simp only [Readers.goto, Cpu.goto_state, Cpu.setState_state] at hst
    split_ifs at hst
    have hd := h.current hst
    rw [hp] at hd
    cases hd

theorem exec (h : Seated s) (hs : s.exec = some s') : Seated s' := by
  unfold Readers.exec at hs
  cases hp : s.cpu.pc s.cpu.current <;> simp only [hp, reduceCtorEq, Option.some.injEq] at hs
  case readTest len =>
    rw [← hs]
    split_ifs
    · exact h.goto _ _ hp rfl
    · exact h.goto _ _ hp rfl
  case readDisable len | readEnable len =>
    rw [← hs]
    exact h.goto _ _ hp rfl
  case readLock len | readScope len | writeScope buffer =>
    exact h.acquire hs rfl (by rw [hp]; rfl) (by rw [hp]; rfl) rfl (by simp)
  case readPush len => exact hs ▸ h.readPush hp
  case readSleep len =>
    rw [Option.ite_none_right_eq_some, Option.some.injEq] at hs
    exact hs.2 ▸ h.readSleep hp
  case readRelease len | readUnlock | writeUnlock =>
    exact h.release hs (by rw [hp]; rfl) rfl (by rw [hp]; rfl) (by simp [hp]) (by simp [hp])
  case readLoop len =>
    have hgoto : ∀ q len', Seated ({ s with queue := q }.goto (.readLoop len')) := fun q len' =>
      h.goto _ _ hp rfl
    have hdone : Seated (s.goto .readUnlock) :=
      h.goto _ _ hp rfl
    cases len with
    | zero =>
      rw [Option.some.injEq] at hs
      exact hs ▸ hdone
    | succ len =>
      dsimp only at hs
      split_ifs at hs
      · obtain ⟨⟨c, q⟩, -, rfl⟩ := Option.map_eq_some_iff.mp hs
        exact hgoto q len
      · rw [Option.some.injEq] at hs
        exact hs ▸ hdone
  case writeLoop buffer =>
    cases buffer with
    | nil =>
      rw [Option.some.injEq] at hs
      rw [← hs]
      exact h.goto _ _ hp rfl
    | cons c cs =>
      obtain ⟨q, -, rfl⟩ := Option.map_eq_some_iff.mp hs
      exact h.goto _ _ hp rfl
  case writeWake =>
    cases hlist : s.readSubscribers with
    | nil =>
      simp only [hlist, Option.some.injEq] at hs
      rw [← hs]
      exact h.goto _ _ hp rfl
    | cons task tasks =>
      simp only [hlist, Option.some.injEq] at hs
      exact hs ▸ h.pop hp hlist
  case writeResume task =>
    obtain ⟨s₁, hs₁, rfl⟩ := Option.map_eq_some_iff.mp hs
    simp only [Readers.resume, Option.ite_none_right_eq_some, Option.some.injEq] at hs₁
    exact hs₁.2 ▸ h.writeResume hp

end Seated

theorem foldlM_resume {tasks : List τ} (hs : tasks.foldlM resume s = some s') :
    s'.queue = s.queue ∧ s'.bufferLock = s.bufferLock ∧ s'.readSubscribers = s.readSubscribers ∧
      s'.cpu.pc = s.cpu.pc ∧ s'.cpu.current = s.cpu.current ∧
      ∀ t, s'.cpu.state t = .sleeping → s.cpu.state t = .sleeping := by
  refine Run.foldlM_invariant (P := fun s' => s'.queue = s.queue ∧ s'.bufferLock = s.bufferLock ∧
    s'.readSubscribers = s.readSubscribers ∧ s'.cpu.pc = s.cpu.pc ∧
    s'.cpu.current = s.cpu.current ∧ ∀ t, s'.cpu.state t = .sleeping → s.cpu.state t = .sleeping)
    hs ⟨rfl, rfl, rfl, rfl, rfl, fun _ ht => ht⟩ ?_
  rintro s₁ task - s₂ ⟨hq, hl, hr, hp, hc, hst⟩ h₂
  simp only [resume, Option.ite_none_right_eq_some, Option.some.injEq] at h₂
  obtain ⟨-, rfl⟩ := h₂
  refine ⟨hq, hl, hr, hp, hc, fun t ht => ?_⟩
  rw [Cpu.setState_state] at ht
  split_ifs at ht
  exact hst t ht

namespace Seated

omit [DecidableEq τ] in
theorem switch {next : τ} (h : Seated s) (hnext : s.cpu.schedulable next = true) :
    Seated { s with cpu := { s.cpu with current := next } } := by
  refine ⟨h.lock, h.nodup, h.subscribed, h.enlisted, h.popped, fun hst => ?_⟩
  simp only [Cpu.schedulable, Bool.and_eq_true, beq_iff_eq] at hnext
  rw [hnext.2] at hst
  cases hst

theorem yield {next : τ} {len : ℕ} (h : Seated s) (hp : s.cpu.pc s.cpu.current = .readYield len)
    (hnext : s.cpu.schedulable next = true) :
    Seated { s with cpu := { s.cpu.goto (.readScope len) with current := next } } := by
  refine ⟨h.lock.stay (by simp [hp]), h.nodup, fun t ht => ?_, fun t ht => ?_, fun u t hu => ?_,
    fun hst => ?_⟩
  · rcases eq_or_ne t s.cpu.current with rfl | hne
    · have hst := (h.subscribed _ ht).resolve_left (by simp [hp])
      exact .inr ⟨by simp, hst.2⟩
    · simpa [hne] using h.subscribed t ht
  · rcases eq_or_ne t s.cpu.current with rfl | hne
    · simp at ht
    · refine h.enlisted t ?_
      simpa only [Cpu.goto_pc, if_neg hne] using ht
  · rcases eq_or_ne u s.cpu.current with rfl | hne
    · simp at hu
    · exact h.popped u t (by simpa [hne] using hu)
  · simp only [Cpu.schedulable, Bool.and_eq_true, beq_iff_eq] at hnext
    simp [hnext.2] at hst

theorem interrupt {buffer : List UInt8} (h : Seated s)
    (hs : s.step (.interrupt buffer) = some s') : Seated s' := by
  simp only [Readers.step, Option.ite_none_left_eq_some, Option.bind_eq_some_iff] at hs
  obtain ⟨hfree, q, -, hs⟩ := hs
  obtain ⟨-, hl, hr, hp, hc, hst⟩ := foldlM_resume hs
  have hlock := h.lock
  rw [Bool.not_eq_true] at hfree
  constructor
  · rw [hp, hl]
    exact hlock
  · rw [hr]
    exact List.nodup_nil
  · rw [hr]
    exact fun t ht => absurd ht List.not_mem_nil
  · intro t ht
    rw [hp] at ht
    rw [hfree] at hlock
    exact absurd (holding_of_enlisted ht) (hlock.not_range t)
  · rw [hr]
    exact fun _ _ _ => List.not_mem_nil
  · rw [hp, hc]
    exact fun hsleep => h.current (hst _ hsleep)

theorem step {i : Event τ} (h : Seated s) (hs : s.step i = some s') : Seated s' := by
  cases i with
  | call c =>
    simp only [Readers.step] at hs
    split at hs
    case h_1 hp =>
      rw [Option.some.injEq] at hs
      rw [← hs]
      exact h.goto _ _ hp rfl
    case h_2 hp =>
      rw [Option.some.injEq] at hs
      rw [← hs]
      exact h.goto _ _ hp rfl
    case h_3 => cases hs
  | exec => exact h.exec hs
  | yield next =>
    simp only [Readers.step] at hs
    split at hs
    case h_1 len hp =>
      rw [Option.ite_none_right_eq_some, Option.some.injEq] at hs
      exact hs.2 ▸ h.yield hp hs.1
    case h_2 => cases hs
  | preempt next =>
    simp only [Readers.step, Option.ite_none_right_eq_some, Option.some.injEq] at hs
    exact hs.2 ▸ h.switch hs.1
  | interrupt buffer => exact h.interrupt hs

end Seated

/-! ### Bytes that are promised to a reader -/

/-- The task is going to look for bytes in the queue, and has room for one. -/
@[simp] def copies : QueuePc τ → Bool
  | .readEnable len | .readYield len | .readScope len => 0 < len
  | _ => false

/-- The task does not wait for a write any more. -/
def Due (s : Readers τ) (t : τ) : Prop := copies (s.cpu.pc t) = true ∧ t ∉ s.readSubscribers

instance (s : Readers τ) (t : τ) : Decidable (s.Due t) :=
  inferInstanceAs (Decidable (copies (s.cpu.pc t) = true ∧ t ∉ s.readSubscribers))

theorem due_of_goto {queue : IQueue} {bufferLock : Bool} {t : τ} (hp : copies p = false)
    (ht : ({ s with queue, bufferLock }.goto p).Due t) : s.Due t := by
  have hne : t ≠ s.cpu.current := by
    rintro rfl
    have hself : copies p = true := by simpa only [goto, Cpu.goto_pc, if_pos] using ht.1
    rw [hp] at hself
    cases hself
  exact ⟨by simpa only [goto, Cpu.goto_pc, if_neg hne] using ht.1, ht.2⟩

/-- At this control point of the current task, a write wakes readers only if there is a byte, and
a reader takes the last byte only if no other reader is due. -/
def Spares (s : Readers τ) : QueuePc τ → Prop
  | .writeWake => ∀ t ∈ s.readSubscribers, copies (s.cpu.pc t) = true → 0 < s.queue.available
  | .readLoop (_ + 1) => s.queue.available = 1 → ∀ t, ¬ s.Due t
  | _ => True

instance [Fintype τ] (s : Readers τ) : DecidablePred s.Spares
  | .writeWake => inferInstanceAs (Decidable (∀ t ∈ s.readSubscribers,
      copies (s.cpu.pc t) = true → 0 < s.queue.available))
  | .readLoop (_ + 1) => inferInstanceAs (Decidable (s.queue.available = 1 → ∀ t, ¬ s.Due t))
  | .out | .readTest _ | .readLock _ | .readPush _ | .readDisable _ | .readSleep _ => isTrue trivial
  | .readRelease _ | .readEnable _ | .readYield _ | .readScope _ | .readLoop 0 => isTrue trivial
  | .readUnlock | .writeScope _ | .writeLoop _ | .writeResume _ | .writeUnlock => isTrue trivial

/-- The bytes last for all readers that are due. -/
def Plentiful (s : Readers τ) : Event τ → Prop
  | .exec => s.Spares (s.cpu.pc s.cpu.current)
  | .interrupt buffer => ∀ t ∈ s.readSubscribers, copies (s.cpu.pc t) = true →
      buffer ≠ [] ∨ 0 < s.queue.available
  | _ => True

instance [Fintype τ] (s : Readers τ) : DecidablePred s.Plentiful
  | .exec => inferInstanceAs (Decidable (s.Spares (s.cpu.pc s.cpu.current)))
  | .interrupt buffer => inferInstanceAs (Decidable (∀ t ∈ s.readSubscribers,
      copies (s.cpu.pc t) = true → buffer ≠ [] ∨ 0 < s.queue.available))
  | .call _ | .yield _ | .preempt _ => isTrue trivial

end Readers

/-- The readers, and what their calls of `read` return. -/
structure Reads (τ : Type*) where
  readers : Readers τ
  /-- the argument of the last call of `read` by a task -/
  len : τ → ℕ
  /-- `bytes_read` of that call -/
  bytesRead : τ → ℕ
  /-- `len` and the result of the calls that have returned -/
  returned : List (ℕ × ℕ)

namespace Reads

open Readers

variable {τ : Type*} [DecidableEq τ]

def init (buffer : ℕ → UInt8) (current : τ) : Reads τ where
  readers := Readers.init buffer current
  len _ := 0
  bytesRead _ := 0
  returned := []

/-- The local variables of `read` after a step of the current task. -/
def note (s : Reads τ) (e : Event τ) : Reads τ :=
  let t := s.readers.cpu.current
  match e, s.readers.cpu.pc t with
  | .call (.read len), _ => { s with len := Function.update s.len t len }
  | .exec, .readScope _ => { s with bytesRead := Function.update s.bytesRead t 0 }
  | .exec, .readLoop (_ + 1) =>
    if 0 < s.readers.queue.available then
      { s with bytesRead := Function.update s.bytesRead t (s.bytesRead t + 1) }
    else s
  | .exec, .readUnlock => { s with returned := s.returned ++ [(s.len t, s.bytesRead t)] }
  | _, _ => s

def step (s : Reads τ) (e : Event τ) : Option (Reads τ) :=
  (s.readers.step e).map fun readers => { s.note e with readers }

def Plentiful (s : Reads τ) (e : Event τ) : Prop := s.readers.Plentiful e

instance [Fintype τ] (s : Reads τ) : DecidablePred s.Plentiful := fun e =>
  inferInstanceAs (Decidable (s.readers.Plentiful e))

/-- The argument of the call of `read`, before it copies. -/
@[simp] def room : QueuePc τ → Option ℕ
  | .readTest len | .readLock len | .readPush len | .readDisable len | .readSleep len => some len
  | .readRelease len | .readEnable len | .readYield len | .readScope len => some len
  | _ => none

/-- There are bytes for the readers that are due, and those that have copied got one. -/
structure Delivers (s : Reads τ) : Prop where
  seated : Seated s.readers
  due : ∀ t, s.readers.Due t → 0 < s.readers.queue.available
  asked : ∀ t n, room (s.readers.cpu.pc t) = some n → s.len t = n
  copying : ∀ t n, s.readers.cpu.pc t = .readLoop n → n + s.bytesRead t = s.len t ∧
    (s.bytesRead t = 0 → 0 < n → 0 < s.readers.queue.available)
  copied : ∀ t, s.readers.cpu.pc t = .readUnlock → 0 < s.len t → 0 < s.bytesRead t
  returned : ∀ r ∈ s.returned, 0 < r.1 → 0 < r.2

omit [DecidableEq τ] in
theorem delivers_init (buffer : ℕ → UInt8) (current : τ) : Delivers (init buffer current) := by
  refine ⟨seated_init buffer current, ?_, ?_, ?_, ?_, ?_⟩
  all_goals simp [init, Readers.init, Cpu.init, Due]

variable {s s' : Reads τ} {p : QueuePc τ}

namespace Delivers

/-- The current task moves to `p`; it may take bytes while it has the lock. -/
theorem move (h : Delivers s) (hseated : Seated s'.readers)
    (hpc : s'.readers.cpu.pc = Function.update s.readers.cpu.pc s.readers.cpu.current p)
    (hlen : ∀ t, t ≠ s.readers.cpu.current → s'.len t = s.len t)
    (hbytes : ∀ t, t ≠ s.readers.cpu.current → s'.bytesRead t = s.bytesRead t)
    (hav : s.readers.queue.available ≤ s'.readers.queue.available ∨
      holding (s.readers.cpu.pc s.readers.cpu.current) = true)
    (hdue : ∀ t, s'.readers.Due t → 0 < s'.readers.queue.available)
    (hasked : ∀ n, room p = some n → s'.len s.readers.cpu.current = n)
    (hcopying : ∀ n, p = .readLoop n →
      n + s'.bytesRead s.readers.cpu.current = s'.len s.readers.cpu.current ∧
      (s'.bytesRead s.readers.cpu.current = 0 → 0 < n → 0 < s'.readers.queue.available))
    (hcopied : p = .readUnlock → 0 < s'.len s.readers.cpu.current →
      0 < s'.bytesRead s.readers.cpu.current)
    (hreturned : ∀ r ∈ s'.returned, 0 < r.1 → 0 < r.2) : Delivers s' := by
  refine ⟨hseated, hdue, fun t n ht => ?_, fun t n ht => ?_, fun t ht => ?_, hreturned⟩
  · rcases eq_or_ne t s.readers.cpu.current with rfl | hne
    · rw [hpc, Function.update_self] at ht
      exact hasked n ht
    · rw [hpc, Function.update_of_ne hne] at ht
      rw [hlen t hne]
      exact h.asked t n ht
  · rcases eq_or_ne t s.readers.cpu.current with rfl | hne
    · rw [hpc, Function.update_self] at ht
      exact hcopying n ht
    · rw [hpc, Function.update_of_ne hne] at ht
      rw [hlen t hne, hbytes t hne]
      obtain ⟨hsum, hpos⟩ := h.copying t n ht
      refine ⟨hsum, fun hzero hn => (hpos hzero hn).trans_le ?_⟩
      refine hav.resolve_right fun hheld => hne ?_
      exact h.seated.lock.unique t _ (by rw [ht]; rfl) hheld
  · rcases eq_or_ne t s.readers.cpu.current with rfl | hne
    · rw [hpc, Function.update_self] at ht
      exact hcopied ht
    · rw [hpc, Function.update_of_ne hne] at ht
      rw [hlen t hne, hbytes t hne]
      exact h.copied t ht

theorem stay {r : Readers τ} (h : Delivers s) (hseated : Seated r)
    (hpc : r.cpu.pc = Function.update s.readers.cpu.pc s.readers.cpu.current p)
    (hav : s.readers.queue.available ≤ r.queue.available)
    (hsubs : ∀ t ∈ s.readers.readSubscribers, t ∈ r.readSubscribers)
    (hcopies : copies p = true → s.readers.cpu.current ∉ r.readSubscribers →
      0 < r.queue.available)
    (hroom : ∀ n, room p = some n → room (s.readers.cpu.pc s.readers.cpu.current) = some n)
    (hloop : ∀ n, p ≠ .readLoop n) (hunlock : p ≠ .readUnlock) :
    Delivers { s with readers := r } := by
  refine h.move hseated hpc (fun _ _ => rfl) (fun _ _ => rfl) (.inl hav) ?_
    (fun n hn => h.asked _ n (hroom n hn)) (fun n hn => absurd hn (hloop n))
    (fun hn => absurd hn hunlock) h.returned
  rintro t ⟨ht, hnot⟩
  rcases eq_or_ne t s.readers.cpu.current with rfl | hne
  · rw [hpc, Function.update_self] at ht
    exact hcopies ht hnot
  · rw [hpc, Function.update_of_ne hne] at ht
    exact (h.due t ⟨ht, fun hmem => hnot (hsubs t hmem)⟩).trans_le hav

theorem readScope {r : Readers τ} {len : ℕ} (h : Delivers s)
    (hp : s.readers.cpu.pc s.readers.cpu.current = .readScope len)
    (hs : s.readers.acquire (.readLoop len) = some r) (hseated : Seated r) :
    Delivers { s.note .exec with readers := r } := by
  have hnot := h.seated.current_not_mem (by rw [hp]; rfl) (by rw [hp]; rfl)
  simp only [Readers.acquire, Option.ite_none_left_eq_some, Option.some.injEq] at hs
  obtain ⟨-, rfl⟩ := hs
  have hnote : s.note .exec =
      { s with bytesRead := Function.update s.bytesRead s.readers.cpu.current 0 } := by
    simp [note, hp]
  rw [hnote]
  refine h.move hseated rfl (fun _ _ => rfl) (fun t ht => Function.update_of_ne ht _ _)
    (.inl le_rfl) (fun t ht => ?_) (by simp) (fun n hn => ?_) (by simp) h.returned
  · exact h.due t (due_of_goto rfl ht)
  · cases hn
    refine ⟨?_, fun _ hpos => h.due s.readers.cpu.current ⟨by simpa [hp] using hpos, hnot⟩⟩
    simpa using (h.asked s.readers.cpu.current len (by rw [hp]; rfl)).symm

theorem readByte {q : IQueue} {c : UInt8} {len : ℕ} (h : Delivers s)
    (hok : s.Plentiful .exec)
    (hp : s.readers.cpu.pc s.readers.cpu.current = .readLoop (len + 1))
    (hpos : 0 < s.readers.queue.available) (hq : s.readers.queue.readByte = some (c, q))
    (hseated : Seated ({ s.readers with queue := q }.goto (.readLoop len))) :
    Delivers { s.note .exec with
      readers := { s.readers with queue := q }.goto (.readLoop len) } := by
  have hnote : s.note .exec = { s with
      bytesRead := Function.update s.bytesRead s.readers.cpu.current
        (s.bytesRead s.readers.cpu.current + 1) } := by
    simp [note, hp, hpos]
  have hav : q.available = s.readers.queue.available - 1 := by
    simp only [IQueue.readByte, Option.ite_none_right_eq_some, Option.some.injEq,
      Prod.mk.injEq] at hq
    obtain ⟨-, -, rfl⟩ := hq
    rfl
  have hspare : s.readers.queue.available = 1 → ∀ t, ¬ s.readers.Due t := by
    simpa only [Reads.Plentiful, Readers.Plentiful, hp, Spares] using hok
  have hsum := (h.copying _ _ hp).1
  rw [hnote]
  refine h.move hseated rfl (fun _ _ => rfl) (fun t ht => Function.update_of_ne ht _ _)
    (.inr (by rw [hp]; rfl)) (fun t ht => ?_) (by simp) (fun n hn => ?_) (by simp) h.returned
  · have hone : s.readers.queue.available ≠ 1 := fun hone => hspare hone t (due_of_goto rfl ht)
    change 0 < q.available
    omega
  · cases hn
    refine ⟨?_, fun hzero => ?_⟩
    · simp only [Function.update_self]
      omega
    · simp at hzero

theorem readDone {n : ℕ} (h : Delivers s)
    (hp : s.readers.cpu.pc s.readers.cpu.current = .readLoop n)
    (hdone : n = 0 ∨ s.readers.queue.available = 0)
    (hseated : Seated (s.readers.goto .readUnlock)) :
    Delivers { s.note .exec with readers := s.readers.goto .readUnlock } := by
  have hnote : s.note .exec = s := by
    rcases hdone with rfl | hzero
    · simp [note, hp]
    · cases n <;> simp [note, hp, hzero]
  obtain ⟨hsum, hpos⟩ := h.copying _ _ hp
  rw [hnote]
  refine h.move hseated rfl (fun _ _ => rfl) (fun _ _ => rfl) (.inl le_rfl) (fun t ht => ?_)
    (by simp) (by simp) (fun _ hlen => ?_) h.returned
  · exact h.due t (due_of_goto rfl ht)
  · have hlen' : 0 < s.len s.readers.cpu.current := hlen
    change 0 < s.bytesRead s.readers.cpu.current
    by_contra hnone
    rcases hdone with rfl | hzero
    · omega
    · have := hpos (by omega) (by omega)
      omega

theorem readUnlock {r : Readers τ} (h : Delivers s)
    (hp : s.readers.cpu.pc s.readers.cpu.current = .readUnlock)
    (hs : s.readers.release .out = some r) (hseated : Seated r) :
    Delivers { s.note .exec with readers := r } := by
  simp only [Readers.release, Option.ite_none_right_eq_some, Option.some.injEq] at hs
  obtain ⟨-, rfl⟩ := hs
  have hnote : s.note .exec = { s with returned := s.returned ++
      [(s.len s.readers.cpu.current, s.bytesRead s.readers.cpu.current)] } := by
    simp [note, hp]
  rw [hnote]
  refine h.move hseated rfl (fun _ _ => rfl) (fun _ _ => rfl) (.inl le_rfl) (fun t ht => ?_)
    (by simp) (by simp) (by simp) (fun r hr => ?_)
  · exact h.due t (due_of_goto rfl ht)
  · rcases List.mem_append.mp hr with hr | hr
    · exact h.returned r hr
    · rw [List.mem_singleton] at hr
      subst hr
      exact h.copied _ hp

theorem pop {task : τ} {tasks : List τ} (h : Delivers s) (hok : s.Plentiful .exec)
    (hp : s.readers.cpu.pc s.readers.cpu.current = .writeWake)
    (hseated : Seated ({ s.readers with readSubscribers := tasks }.goto (.writeResume task))) :
    Delivers { s with
      readers := { s.readers with readSubscribers := tasks }.goto (.writeResume task) } := by
  have hspare : ∀ t ∈ s.readers.readSubscribers, copies (s.readers.cpu.pc t) = true →
      0 < s.readers.queue.available := by
    simpa only [Reads.Plentiful, Readers.Plentiful, hp, Spares] using hok
  refine h.move hseated rfl (fun _ _ => rfl) (fun _ _ => rfl) (.inl le_rfl) (fun t ht => ?_)
    (by simp) (by simp) (by simp) h.returned
  have hne : t ≠ s.readers.cpu.current := by
    rintro rfl
    simp [Due, Readers.goto] at ht
  have hcopies : copies (s.readers.cpu.pc t) = true := by
    simpa only [Readers.goto, Cpu.goto_pc, if_neg hne] using ht.1
  by_cases hmem : t ∈ s.readers.readSubscribers
  · exact hspare t hmem hcopies
  · exact h.due t ⟨hcopies, hmem⟩

theorem available_writeByte {q q' : IQueue} {c : UInt8} (hq : q.writeByte c = some q') :
    q.available ≤ q'.available ∧ 0 < q'.available := by
  have hptr : q.writePtr < queueBufferSize := by
    by_contra hptr
    simp [IQueue.writeByte, hptr] at hq
  rcases Nat.lt_or_ge q.available queueBufferSize with hlt | hge
  · rw [IQueue.writeByte_eq hptr hlt, Option.some.injEq] at hq
    subst hq
    exact ⟨Nat.le_succ _, Nat.succ_pos _⟩
  · rw [IQueue.writeByte_eq_of_full hptr (not_lt.mpr hge), Option.some.injEq] at hq
    subst hq
    exact ⟨le_rfl, (Nat.succ_pos _).trans_le hge⟩

theorem exec (h : Delivers s) (hok : s.Plentiful .exec) (hs : s.step .exec = some s') :
    Delivers s' := by
  obtain ⟨r, hr, rfl⟩ := Option.map_eq_some_iff.mp hs
  have hseated : Seated r := h.seated.exec hr
  change s.readers.exec = some r at hr
  unfold Readers.exec at hr
  cases hp : s.readers.cpu.pc s.readers.cpu.current <;>
    simp only [hp, reduceCtorEq, Option.some.injEq] at hr
  case readScope len => exact h.readScope hp hr hseated
  case readUnlock => exact h.readUnlock hp hr hseated
  case readLoop len =>
    cases len with
    | zero =>
      rw [Option.some.injEq] at hr
      subst hr
      exact h.readDone hp (.inl rfl) hseated
    | succ len =>
      dsimp only at hr
      split_ifs at hr with hpos
      · obtain ⟨⟨c, q⟩, hq, rfl⟩ := Option.map_eq_some_iff.mp hr
        exact h.readByte hok hp hpos hq hseated
      · rw [Option.some.injEq] at hr
        subst hr
        exact h.readDone hp (.inr (Nat.eq_zero_of_not_pos hpos)) hseated
  all_goals
    have hnote : s.note .exec = s := by simp [note, hp]
    rw [hnote]
  case readTest len =>
    subst hr
    split_ifs at hseated ⊢ with hzero
    · exact h.stay hseated rfl le_rfl (fun _ => id) (by simp) (by simp [hp]) (by simp) (by simp)
    · exact h.stay hseated rfl le_rfl (fun _ => id) (fun _ _ => Nat.pos_of_ne_zero hzero)
        (by simp [hp]) (by simp) (by simp)
  case readPush len =>
    subst hr
    exact h.stay hseated rfl le_rfl (fun _ => List.mem_append_left _) (by simp) (by simp [hp])
      (by simp) (by simp)
  case readDisable len =>
    subst hr
    exact h.stay hseated rfl le_rfl (fun _ => id) (by simp) (by simp [hp]) (by simp) (by simp)
  case readEnable len =>
    subst hr
    refine h.stay hseated rfl le_rfl (fun _ => id) (fun hc hnot => ?_) (by simp [hp]) (by simp)
      (by simp)
    exact h.due _ ⟨by rw [hp]; exact hc, hnot⟩
  case readSleep len =>
    rw [Option.ite_none_right_eq_some, Option.some.injEq] at hr
    obtain ⟨-, rfl⟩ := hr
    exact h.stay hseated rfl le_rfl (fun _ => id) (by simp) (by simp [hp]) (by simp) (by simp)
  case readRelease len =>
    have hmem := h.seated.enlisted s.readers.cpu.current (by rw [hp]; rfl)
    simp only [Readers.release, Option.ite_none_right_eq_some, Option.some.injEq] at hr
    obtain ⟨-, rfl⟩ := hr
    exact h.stay hseated rfl le_rfl (fun _ => id) (fun _ hnot => absurd hmem hnot) (by simp [hp])
      (by simp) (by simp)
  case readLock len =>
    simp only [Readers.acquire, Option.ite_none_left_eq_some, Option.some.injEq] at hr
    obtain ⟨-, rfl⟩ := hr
    exact h.stay hseated rfl le_rfl (fun _ => id) (by simp) (by simp [hp]) (by simp) (by simp)
  case writeScope buffer =>
    simp only [Readers.acquire, Option.ite_none_left_eq_some, Option.some.injEq] at hr
    obtain ⟨-, rfl⟩ := hr
    exact h.stay hseated rfl le_rfl (fun _ => id) (by simp) (by simp) (by simp) (by simp)
  case writeLoop buffer =>
    cases buffer with
    | nil =>
      rw [Option.some.injEq] at hr
      subst hr
      exact h.stay hseated rfl le_rfl (fun _ => id) (by simp) (by simp) (by simp) (by simp)
    | cons c cs =>
      obtain ⟨q, hq, rfl⟩ := Option.map_eq_some_iff.mp hr
      exact h.stay hseated rfl (available_writeByte hq).1 (fun _ => id) (by simp) (by simp)
        (by simp) (by simp)
  case writeWake =>
    cases hlist : s.readers.readSubscribers with
    | nil =>
      simp only [hlist, Option.some.injEq] at hr
      subst hr
      exact h.stay hseated rfl le_rfl (fun _ => id) (by simp) (by simp) (by simp) (by simp)
    | cons task tasks =>
      simp only [hlist, Option.some.injEq] at hr
      subst hr
      exact h.pop hok hp hseated
  case writeResume task =>
    obtain ⟨r, hresume, rfl⟩ := Option.map_eq_some_iff.mp hr
    simp only [Readers.resume, Option.ite_none_right_eq_some, Option.some.injEq] at hresume
    obtain ⟨-, rfl⟩ := hresume
    exact h.stay hseated rfl le_rfl (fun _ => id) (by simp) (by simp) (by simp) (by simp)
  case writeUnlock =>
    simp only [Readers.release, Option.ite_none_right_eq_some, Option.some.injEq] at hr
    obtain ⟨-, rfl⟩ := hr
    exact h.stay hseated rfl le_rfl (fun _ => id) (by simp) (by simp) (by simp) (by simp)

/-- The handler writes and wakes all subscribers. -/
theorem interrupt {buffer : List UInt8} (h : Delivers s) (hok : s.Plentiful (.interrupt buffer))
    (hs : s.step (.interrupt buffer) = some s') : Delivers s' := by
  obtain ⟨r, hr, rfl⟩ := Option.map_eq_some_iff.mp hs
  have hseated : Seated r := h.seated.step hr
  simp only [Readers.step, Option.ite_none_left_eq_some, Option.bind_eq_some_iff] at hr
  obtain ⟨-, q, hq, hr⟩ := hr
  obtain ⟨hqueue, -, hsubs, hpc, -, -⟩ := foldlM_resume hr
  have hav : s.readers.queue.available ≤ r.queue.available ∧
      (buffer ≠ [] → 0 < r.queue.available) := by
    rw [hqueue]
    cases buffer with
    | nil =>
      simp only [List.foldlM_nil, Option.pure_def, Option.some.injEq] at hq
      exact ⟨by rw [← hq], fun hne => absurd rfl hne⟩
    | cons c cs =>
      simp only [List.foldlM_cons, Option.bind_eq_bind, Option.bind_eq_some_iff] at hq
      obtain ⟨q₁, hq₁, hq⟩ := hq
      obtain ⟨hle, hpos⟩ := available_writeByte hq₁
      have hmono : q₁.available ≤ q.available :=
        Run.foldlM_invariant (P := fun q => q₁.available ≤ q.available) hq le_rfl
          fun _ _ _ _ hle hq => hle.trans (available_writeByte hq).1
      exact ⟨hle.trans hmono, fun _ => hpos.trans_le hmono⟩
  refine ⟨hseated, fun t ht => ?_, ?_, fun t n ht => ?_, ?_, h.returned⟩
  · have hcopies : copies (s.readers.cpu.pc t) = true := by
      rw [← congrFun hpc t]
      exact ht.1
    by_cases hmem : t ∈ s.readers.readSubscribers
    · exact (hok t hmem hcopies).elim hav.2 fun hpos => hpos.trans_le hav.1
    · exact (h.due t ⟨hcopies, hmem⟩).trans_le hav.1
  · change ∀ t n, room (r.cpu.pc t) = some n → s.len t = n
    rw [hpc]
    exact h.asked
  · change r.cpu.pc t = .readLoop n at ht
    rw [hpc] at ht
    obtain ⟨hsum, hpos⟩ := h.copying t n ht
    exact ⟨hsum, fun hzero hn => (hpos hzero hn).trans_le hav.1⟩
  · change ∀ t, r.cpu.pc t = .readUnlock → 0 < s.len t → 0 < s.bytesRead t
    rw [hpc]
    exact h.copied

theorem step {e : Event τ} (h : Delivers s) (hok : s.Plentiful e) (hs : s.step e = some s') :
    Delivers s' := by
  cases e with
  | exec => exact h.exec hok hs
  | interrupt buffer => exact h.interrupt hok hs
  | call c =>
    obtain ⟨r, hr, rfl⟩ := Option.map_eq_some_iff.mp hs
    have hseated : Seated r := h.seated.step hr
    simp only [Readers.step] at hr
    split at hr
    case h_1 len hp =>
      rw [Option.some.injEq] at hr
      subst hr
      refine h.move hseated rfl (fun t ht => Function.update_of_ne ht _ _) (fun _ _ => rfl)
        (.inl le_rfl) (fun t ht => h.due t (due_of_goto rfl ht)) (fun n hn => ?_) (by simp)
        (by simp)
        h.returned
      simpa [note] using hn
    case h_2 buffer hp =>
      rw [Option.some.injEq] at hr
      subst hr
      exact h.stay hseated rfl le_rfl (fun _ => id) (by simp) (by simp) (by simp) (by simp)
    case h_3 => cases hr
  | yield next =>
    obtain ⟨r, hr, rfl⟩ := Option.map_eq_some_iff.mp hs
    have hseated : Seated r := h.seated.step hr
    simp only [Readers.step] at hr
    split at hr
    case h_1 len hp =>
      rw [Option.ite_none_right_eq_some, Option.some.injEq] at hr
      obtain ⟨-, rfl⟩ := hr
      refine h.stay hseated rfl le_rfl (fun _ => id) (fun hc hnot => ?_) (by simp [hp]) (by simp)
        (by simp)
      exact h.due _ ⟨by rw [hp]; exact hc, hnot⟩
    case h_2 => cases hr
  | preempt next =>
    obtain ⟨r, hr, rfl⟩ := Option.map_eq_some_iff.mp hs
    have hseated : Seated r := h.seated.step hr
    simp only [Readers.step, Option.ite_none_right_eq_some, Option.some.injEq] at hr
    obtain ⟨-, rfl⟩ := hr
    exact ⟨hseated, h.due, h.asked, h.copying, h.copied, h.returned⟩

end Delivers

/-- In a run in which the bytes last for all readers that are due, a call of `read` with room for
a byte that returns has returned one. -/
theorem pos_of_returned (buffer : ℕ → UInt8) (current : τ)
    (hr : Run.Reachable step Plentiful (init buffer current) s) (len bytesRead : ℕ)
    (hmem : (len, bytesRead) ∈ s.returned) (hlen : 0 < len) : 0 < bytesRead := by
  have h : Delivers s :=
    hr.invariant (delivers_init buffer current) fun _ _ _ h hok hs => h.step hok hs
  exact h.returned _ hmem hlen

/-- The task `false` reads from the empty queue and sleeps. -/
def sleepingReader : List (Event Bool) :=
  Event.call (.read 1) :: List.replicate 7 .exec ++ [Event.yield true]

/-- The other task writes these bytes, and the reader goes on. -/
def writtenBy (buffer : List UInt8) : List (Event Bool) :=
  Event.call (.write buffer) :: List.replicate (6 + buffer.length) .exec ++
    [Event.preempt false]

theorem pos_of_returned_writtenBy : ∃ s : Reads Bool,
    Run.guardedRun step Plentiful (init (fun _ => 0) false)
      (sleepingReader ++ writtenBy [7] ++ List.replicate 4 Event.exec) = some s ∧
      (1, 1) ∈ s.returned ∧ 0 < 1 := by
  have hrun : (Run.guardedRun step Plentiful (init (fun _ => 0) false)
      (sleepingReader ++ writtenBy [7] ++ List.replicate 4 Event.exec)).map Reads.returned =
        some [(1, 1)] := by
    decide_cbv
  obtain ⟨s, hs, hret⟩ := Option.map_eq_some_iff.mp hrun
  have hmem : (1, 1) ∈ s.returned := by simp [hret]
  exact ⟨s, hs, hmem, pos_of_returned (fun _ => 0) false (Run.reachable_of_guardedRun hs) 1 1 hmem
    (by decide)⟩

/-- The reader is woken up by an empty write, and returns no byte. -/
theorem not_forall_pos_of_returned : ¬ ∀ s : Reads Bool,
    Run.Reachable step (fun _ _ => True) (init (fun _ => 0) false) s →
      ∀ len bytesRead, (len, bytesRead) ∈ s.returned → 0 < len → 0 < bytesRead := by
  intro hall
  have hrun : ((sleepingReader ++ writtenBy [] ++ List.replicate 3 Event.exec).foldlM step
      (init (fun _ => 0) false)).map Reads.returned = some [(1, 0)] := by
    decide_cbv
  obtain ⟨s, hs, hret⟩ := Option.map_eq_some_iff.mp hrun
  have hzero : 0 < 0 :=
    hall s (Run.reachable_of_foldlM hs) 1 0 (by simp [hret]) (by decide)
  exact absurd hzero (lt_irrefl 0)

end Reads

end Koerix
