import Mathlib
import Koerix.Proc.StackOwners

/-! # Runs with stacks

The steps of the threads keep every stack in a slot of its own, as long as the
copy of a fork is not disturbed: the size that it has read first fits the
array that it allocates, and every byte is read from the array that the process
has at that moment, not before a `push_back` has filled it.
-/

namespace Koerix

namespace Stacks

variable {π τ : Type} {s s' s₁ : Stacks π τ} {p q : π} {t : τ} {a i : ℕ} {list : BoolVector}

/-- The array is the one of the process, and it is not about to be filled. -/
def Current (s : Stacks π τ) (p : π) (array : ℕ) : Prop :=
  (∀ list ∈ s.stackList p, list.array = array) ∧ ∀ g ∈ s.growth p, g.copied = true

instance (s : Stacks π τ) (p : π) (array : ℕ) : Decidable (s.Current p array) :=
  inferInstanceAs (Decidable ((∀ list ∈ s.stackList p, list.array = array) ∧
    ∀ g ∈ s.growth p, g.copied = true))

/-- The vector of a fork has room for the size read first, and its bytes come from the array that
its process has. -/
def Undisturbed (s : Stacks π τ) : Event π τ → Prop
  | .forkAlloc t _ => ∀ u ∈ s.task t, ∀ list ∈ s.stackList u.process, ∀ n ∈ (s.fork t).asked,
      n ≤ allocCapacity list.size
  | .forkCopy t => ∀ u ∈ s.task t, ∀ source ∈ (s.fork t).source, s.Current u.process source
  | _ => True

instance (s : Stacks π τ) : DecidablePred s.Undisturbed
  | .forkAlloc t _ => inferInstanceAs (Decidable (∀ u ∈ s.task t, ∀ list ∈ s.stackList u.process,
      ∀ n ∈ (s.fork t).asked, n ≤ allocCapacity list.size))
  | .forkCopy t => inferInstanceAs (Decidable (∀ u ∈ s.task t, ∀ source ∈ (s.fork t).source,
      s.Current u.process source))
  | .newProcess _ _ _ | .addTask _ _ | .grow _ _ | .growCopy _ | .growPush _ _ => isTrue trivial
  | .forkSize _ | .forkLoad _ | .forkTask _ _ _ | .exit _ | .reap _ => isTrue trivial
  | .write _ _ _ => isTrue trivial

theorem home_of_current (hc : s.Current p a) (hl : s.stackList p = some list) :
    s.home p = some a := by
  have hold : s.owned (.old p) = none := by
    cases hg : s.growth p with
    | none => simp [owned, hg]
    | some g => simp [owned, hg, hc.2 g hg]
  have hlist : s.owned (.list p) = some a := by simp [owned, hl, hc.1 list hl]
  simp [home, hold, hlist]

theorem lt_allocCapacity (n : ℕ) : n < allocCapacity n := by
  simp only [allocCapacity, Nat.shiftRight_eq_div_pow, Nat.shiftLeft_eq]
  omega

variable [DecidableEq τ]

omit [DecidableEq τ] in
theorem Placed.mem_taken {u : UserTask π} (h : Placed s) (ha : Arrays s) (ht : s.task t = some u)
    (hi : i < 2 ^ 40) (he : u.stack = stackPtr i) : i ∈ s.taken u.process := by
  obtain ⟨j, hj, he'⟩ := h.slot t u ht
  have : j = i := by
    rw [← stackSlot_stackPtr (ha.lt_of_taken hj), ← he', he, stackSlot_stackPtr hi]
  exact this ▸ hj

omit [DecidableEq τ] in
theorem Placed.stackSlot_mem {u : UserTask π} (h : Placed s) (ha : Arrays s)
    (ht : s.task t = some u) : stackSlot u.stack ∈ s.taken u.process ∧
      u.stack = stackPtr (stackSlot u.stack) := by
  obtain ⟨i, hi, he⟩ := h.slot t u ht
  have hslot : stackSlot u.stack = i := by rw [he, stackSlot_stackPtr (ha.lt_of_taken hi)]
  rw [hslot]
  exact ⟨hi, he⟩

theorem Placed.add (h : Placed s) (ha : Arrays s) (htask : s₁.task = s.task)
    (hnone : s₁.task t = none) (hsub : ∀ q, s.taken q ⊆ s₁.taken q) (hi : i ∈ s₁.taken p)
    (hlt : i < 2 ^ 40) (hfresh : i ∉ s.taken p) :
    Placed (s₁.setTask t (some ⟨p, stackPtr i, false⟩)) := by
  have hother : ∀ v u, v ≠ t → (s₁.setTask t (some ⟨p, stackPtr i, false⟩)).task v = some u →
      s.task v = some u := fun v u hv hu => by
    rw [← htask]
    simpa [setTask, hv] using hu
  have hself : ∀ u, (s₁.setTask t (some ⟨p, stackPtr i, false⟩)).task t = some u →
      u = ⟨p, stackPtr i, false⟩ := fun u hu => by
    simpa [setTask, eq_comm] using hu
  have hne : ∀ v u, v ≠ t → s.task v = some u → u.process = p → u.stack ≠ stackPtr i := by
    rintro v u - hv rfl he
    exact hfresh (h.mem_taken ha hv hlt he)
  constructor
  · intro v u hv
    rcases eq_or_ne v t with rfl | hvt
    · obtain rfl := hself u hv
      exact ⟨i, hi, rfl⟩
    · obtain ⟨j, hj, he⟩ := h.slot v u (hother v u hvt hv)
      exact ⟨j, hsub _ hj, he⟩
  · intro v v' u u' hv hv' hp hst
    rcases eq_or_ne v t with hvt | hvt <;> rcases eq_or_ne v' t with hvt' | hvt'
    · rw [hvt, hvt']
    · rw [hvt] at hv
      obtain rfl := hself u hv
      exact absurd hst.symm (hne v' u' hvt' (hother v' u' hvt' hv') hp.symm)
    · rw [hvt'] at hv'
      obtain rfl := hself u' hv'
      exact absurd hst (hne v u hvt (hother v u hvt hv) hp)
    · exact h.apart v v' u u' (hother v u hvt hv) (hother v' u' hvt' hv') hp hst

theorem Placed.remove {killed : Bool} (h : Placed s) (hm : Unmarks s s₁ p i)
    (htask : s₁.task = s.task) (ht : s.task t = some ⟨p, stackPtr i, killed⟩) :
    Placed (s₁.setTask t none) := by
  have hother : ∀ v u, (s₁.setTask t none).task v = some u → v ≠ t ∧ s.task v = some u := by
    intro v u hv
    rcases eq_or_ne v t with rfl | hvt
    · simp [setTask] at hv
    · refine ⟨hvt, ?_⟩
      rw [← htask]
      simpa [setTask, hvt] using hv
  constructor
  · intro v u hv
    obtain ⟨hvt, hv⟩ := hother v u hv
    obtain ⟨j, hj, he⟩ := h.slot v u hv
    refine ⟨j, ?_, he⟩
    change j ∈ s₁.taken u.process
    rcases eq_or_ne u.process p with hp | hp
    · rw [hp, hm.self]
      rw [hp] at hj
      refine ⟨hj, fun hji => hvt (h.apart v t u _ hv ht hp ?_)⟩
      rw [he, Set.mem_singleton_iff.mp hji]
    · rw [hm.others _ hp]
      exact hj
  · intro v v' u u' hv hv'
    exact h.apart v v' u u' (hother v u hv).2 (hother v' u' hv').2

theorem Forks.setTask {x : Option (UserTask π)} (h : Forks s) (hout : s.fork t = .out) :
    Forks (s.setTask t x) := by
  refine h.mono rfl (fun v hv => Function.update_of_ne ?_ ..) fun _ _ _ => rfl
  rintro rfl
  exact hv hout

omit [DecidableEq τ] in
theorem Forks.out_of_none (h : Forks s) (ht : s.task t = none) : s.fork t = .out := by
  by_contra hne
  obtain ⟨u, hu, -⟩ := h.forkee t hne
  rw [ht] at hu
  cases hu

theorem Forks.setFork {f : ForkPc} (h : Forks s)
    (hforkee : f ≠ .out → ∃ u, s.task t = some u ∧ u.killed = false)
    (hsize : ∀ n u, f.size = some n → s.task t = some u → stackSlot u.stack < n)
    (hcopied : ∀ list source i u, f = .copy list source i → s.task t = some u →
      stackSlot u.stack < i → s.mem list.array (stackSlot u.stack) = true) :
    Forks (s.setFork t f) where
  forkee v hv := by
    rcases eq_or_ne v t with rfl | hvt
    · exact hforkee (by simpa [Stacks.setFork] using hv)
    · exact h.forkee v (by simpa [Stacks.setFork, hvt] using hv)
  size v n u hn hv := by
    rcases eq_or_ne v t with rfl | hvt
    · exact hsize n u (by simpa [Stacks.setFork] using hn) hv
    · exact h.size v n u (by simpa [Stacks.setFork, hvt] using hn) hv
  copied v list source i u hf hv := by
    rcases eq_or_ne v t with rfl | hvt
    · exact hcopied list source i u (by simpa [Stacks.setFork] using hf) hv
    · exact h.copied v list source i u (by simpa [Stacks.setFork, hvt] using hf) hv

theorem Arrays.setFork {f : ForkPc} [DecidableEq π] (h : Arrays s)
    (hlist : f.list = (s.fork t).list) : Arrays (s.setFork t f) := by
  have howned : (s.setFork t f).owned = s.owned := by
    rw [owned_setFork]
    exact Function.update_eq_self_iff.mpr (by rw [hlist]; rfl)
  refine ⟨howned ▸ h.exclusive, howned ▸ h.used, h.fits, h.born, h.room, fun v l hv => ?_⟩
  rcases eq_or_ne v t with rfl | hvt
  · exact h.copyFits v l (by simpa [Stacks.setFork, hlist] using hv)
  · exact h.copyFits v l (by simpa [Stacks.setFork, hvt] using hv)

namespace Inv

variable [DecidableEq π]

omit [DecidableEq π] in
theorem insertTask {stack : ℕ} (h : Inv s) (ha : Arrays s₁) (hm : Marks s s₁ p i)
    (htask : s₁.task = s.task) (hf : Forks s₁) (he : stack = stackPtr i)
    (hs : s₁.insertTask t p stack = some s') : Inv s' := by
  rw [Stacks.insertTask] at hs
  split at hs
  case h_1 => cases hs
  case h_2 hnone =>
    cases hs
    subst he
    refine ⟨⟨ha.exclusive, ha.used, ha.fits, ha.born, ha.room, ha.copyFits⟩,
      h.placed.add h.arrays htask hnone (fun q => ?_) ?_ hm.lt hm.fresh,
      hf.setTask (hf.out_of_none hnone)⟩
    · rcases eq_or_ne q p with rfl | hne
      · rw [hm.self]
        exact Set.subset_insert i _
      · rw [hm.others q hne]
    · rw [hm.self]
      exact Set.mem_insert i _

theorem newProcess (h : Inv s) (hs : s.step (.newProcess p a t) = some s') : Inv s' := by
  simp only [step] at hs
  split at hs
  case h_1 => cases hs
  case h_2 hnone =>
    obtain ⟨s₁, hs₁, hs⟩ := Option.bind_eq_some_iff.mp hs
    obtain ⟨⟨stack, s₂⟩, hs₂, hins⟩ := Option.bind_eq_some_iff.mp hs
    obtain ⟨h₁, hfresh, hused, hle, htaken, hforks⟩ := newArray_spec h.arrays hs₁
    obtain ⟨-, -, rfl⟩ := newArray_eq_some.mp hs₁
    have hg : s.growth p = none := by
      by_contra hg
      exact h.arrays.born p hg hnone
    have harr := Arrays.setList (p := p) h₁ (fun o _ => hfresh o) hused
      (show BoolVector.Fits ⟨0, allocCapacity 0, a⟩ from ⟨Nat.zero_le _, hle⟩) (absurd hg)
    obtain ⟨h₂, htask, hf, i, he, hm⟩ := allocStack_spec harr hg hs₂
    have hf₁ : Forks s₂ :=
      hf ((hforks h.forks).mono rfl (fun _ _ => rfl) fun _ _ _ => rfl)
    -- nothing was marked in a process that was not there
    have hempty : ∀ q, q = p → s.taken q = ∅ := by
      rintro q rfl
      rw [Set.eq_empty_iff_forall_notMem]
      rintro j ⟨list, hl, -⟩
      rw [hnone] at hl
      cases hl
    set s₁ : Stacks π τ := { s with
      mem := Function.update s.mem a fun _ => false
      used := Function.update s.used a true }
    have hempty' : (s₁.setList p ⟨0, allocCapacity 0, a⟩).taken p = ∅ := by
      rw [Set.eq_empty_iff_forall_notMem]
      rintro j ⟨list, hl, hj, -⟩
      simp only [setList, Function.update_self, Option.some.injEq] at hl
      rw [← hl] at hj
      exact absurd hj (Nat.not_lt_zero j)
    have hother : ∀ q, q ≠ p → (s₁.setList p ⟨0, allocCapacity 0, a⟩).taken q = s.taken q := by
      intro q hq
      rw [← htaken q]
      refine taken_congr (by simp [setList, hq]) ?_ fun _ _ => rfl
      rw [home, home, owned_setList, Function.update_of_ne (by simp),
        Function.update_of_ne (by simpa using hq)]
    refine h.insertTask h₂ ⟨?_, hm.lt, ?_, fun q hq =>
      (hm.others q hq).trans (hother q hq)⟩ htask hf₁
      he hins
    · rw [hempty p rfl]
      exact Set.notMem_empty i
    · rw [hm.self, hempty', hempty p rfl]

theorem addTask (h : Inv s) (hs : s.step (.addTask p t) = some s') : Inv s' := by
  simp only [step] at hs
  split at hs
  case h_1 => cases hs
  case h_2 hg =>
    obtain ⟨⟨stack, s₁⟩, hs₁, hs⟩ := Option.bind_eq_some_iff.mp hs
    obtain ⟨h₁, htask, hf, i, he, hm⟩ := allocStack_spec h.arrays hg hs₁
    exact h.insertTask h₁ hm htask (hf h.forks) he hs

theorem grow (h : Inv s) (hs : s.step (.grow p a) = some s') : Inv s' := by
  simp only [step] at hs
  split at hs
  case h_2 => cases hs
  case h_1 list hg hl =>
    rw [Option.ite_none_right_eq_some] at hs
    obtain ⟨⟨-, -⟩, hs⟩ := hs
    obtain ⟨s₁, hs₁, hs⟩ := Option.bind_eq_some_iff.mp hs
    cases hs
    have hcap : list.size < allocCapacity (list.size + 1) :=
      (Nat.lt_succ_self _).trans (lt_allocCapacity _)
    obtain ⟨h₁, htaken, hf⟩ := grow_spec h.arrays hg hl hcap hs₁
    obtain ⟨-, -, rfl⟩ := newArray_eq_some.mp hs₁
    exact ⟨h₁, h.placed.mono rfl fun q => (htaken q).ge, hf h.forks⟩

theorem growCopy (h : Inv s) (hs : s.step (.growCopy p) = some s') : Inv s' := by
  have hs' := hs
  simp only [step] at hs'
  split at hs'
  case h_2 => cases hs'
  case h_1 old list hg hl =>
    obtain ⟨h₁, htaken, htask, hf⟩ := growCopy_spec h.arrays hg hl hs
    exact ⟨h₁, h.placed.mono htask fun q => (htaken q).ge, hf h.forks⟩

theorem growPush (h : Inv s) (hs : s.step (.growPush p t) = some s') : Inv s' := by
  simp only [step] at hs
  split at hs
  case h_2 => cases hs
  case h_1 list hg hl =>
    have hold : s.owned (.old p) = none := by simp [owned, hg]
    obtain ⟨h₁, hm, hf⟩ := marks_push h.arrays hl hold (h.arrays.room p list hl (by simp [hg]))
    exact h.insertTask h₁ hm rfl (hf h.forks) rfl hs

theorem exit (h : Inv s) (hs : s.step (.exit t) = some s') : Inv s' := by
  simp only [step] at hs
  split at hs
  case h_2 => cases hs
  case h_1 p stack hout ht =>
    cases hs
    have hback : ∀ v u, (s.setTask t (some ⟨p, stack, true⟩)).task v = some u →
        ∃ u', s.task v = some u' ∧ u'.process = u.process ∧ u'.stack = u.stack := by
      intro v u hv
      rcases eq_or_ne v t with rfl | hvt
      · simp only [setTask, Function.update_self, Option.some.injEq] at hv
        exact ⟨_, ht, by rw [← hv], by rw [← hv]⟩
      · exact ⟨u, by simpa [setTask, hvt] using hv, rfl, rfl⟩
    refine ⟨⟨h.arrays.exclusive, h.arrays.used, h.arrays.fits, h.arrays.born, h.arrays.room,
      h.arrays.copyFits⟩, ⟨fun v u hv => ?_, fun v v' u u' hv hv' hp hst => ?_⟩,
      h.forks.setTask hout⟩
    · obtain ⟨w, hw, hp, hst⟩ := hback v u hv
      rw [← hp, ← hst]
      exact h.placed.slot v w hw
    · obtain ⟨w, hw, hwp, hwst⟩ := hback v u hv
      obtain ⟨w', hw', hwp', hwst'⟩ := hback v' u' hv'
      exact h.placed.apart v v' w w' hw hw' (by rw [hwp, hwp', hp]) (by rw [hwst, hwst', hst])

theorem reap (h : Inv s) (hs : s.step (.reap t) = some s') : Inv s' := by
  simp only [step] at hs
  split at hs
  case h_2 => cases hs
  case h_1 p stack ht =>
    split at hs
    case h_1 => cases hs
    case h_2 hg =>
      obtain ⟨s₁, hs₁, rfl⟩ := Option.map_eq_some_iff.mp hs
      obtain ⟨i, hi, he⟩ := h.placed.slot t _ ht
      dsimp only at hi he
      subst he
      obtain ⟨s₂, hs₂, h₁, htask, hf, hm⟩ := releaseStack_spec h.arrays hg hi
      rw [hs₁, Option.some.injEq] at hs₂
      subst hs₂
      have hout : s₁.fork t = .out := by
        by_contra hne
        obtain ⟨u, hu, hkilled⟩ := (hf h.forks).forkee t hne
        rw [htask, ht, Option.some.injEq] at hu
        rw [← hu] at hkilled
        cases hkilled
      exact ⟨⟨h₁.exclusive, h₁.used, h₁.fits, h₁.born, h₁.room, h₁.copyFits⟩,
        h.placed.remove hm htask ht, (hf h.forks).setTask hout⟩

theorem write {b : Bool} (h : Inv s) (hs : s.step (.write a i b) = some s') : Inv s' := by
  simp only [step, Option.ite_none_left_eq_some, Option.some.injEq] at hs
  obtain ⟨hfree, rfl⟩ := hs
  have hne : ∀ o, s.owned o ≠ some a := fun o ho => hfree (h.arrays.used o a ho)
  refine ⟨h.arrays.setByte, h.placed.mono rfl fun q => (taken_setByte_of_ne fun hq => ?_).ge,
    h.forks.setByte fun t => hne _⟩
  exact (home_cases hq).elim (hne _) (hne _)

theorem forkSize (h : Inv s) (hs : s.step (.forkSize t) = some s') : Inv s' := by
  simp only [step] at hs
  split at hs
  case h_2 => cases hs
  case h_1 p stack hout ht =>
    obtain ⟨list, hl, rfl⟩ := Option.map_eq_some_iff.mp hs
    refine ⟨h.arrays.setFork (by rw [hout]; rfl), h.placed.mono rfl fun _ => subset_rfl,
      h.forks.setFork (fun _ => ⟨_, ht, rfl⟩) (fun n u hn hu => ?_) (by rintro _ _ _ _ ⟨⟩)⟩
    obtain ⟨l, hl', hlt, -⟩ := (h.placed.stackSlot_mem h.arrays hu).1
    rw [ht, Option.some.injEq] at hu
    rw [← hu, hl, Option.some.injEq] at hl'
    rw [ForkPc.size, Option.some.injEq] at hn
    rwa [← hn, hl']

theorem forkAlloc (h : Inv s) (hok : s.Undisturbed (.forkAlloc t a))
    (hs : s.step (.forkAlloc t a) = some s') : Inv s' := by
  simp only [step] at hs
  split at hs
  case h_2 => cases hs
  case h_1 size p stack killed hf ht =>
    obtain ⟨list, hl, hs⟩ := Option.bind_eq_some_iff.mp hs
    obtain ⟨s₁, hs₁, hs⟩ := Option.bind_eq_some_iff.mp hs
    cases hs
    have hsize : size ≤ allocCapacity list.size := hok _ ht list hl size (by rw [hf]; rfl)
    obtain ⟨h₁, hfresh, hused, hle, htaken, hforks⟩ := newArray_spec h.arrays hs₁
    obtain ⟨-, -, rfl⟩ := newArray_eq_some.mp hs₁
    refine ⟨⟨?_, fun o a' ho => ?_, h₁.fits, h₁.born, h₁.room, fun v l hv => ?_⟩,
      h.placed.mono rfl fun q => (htaken q).ge, (hforks h.forks).setFork (fun _ => ?_)
      (fun n u hn hu => ?_) (by rintro _ _ _ _ ⟨⟩)⟩
    · rw [owned_setFork]
      exact h₁.exclusive.take fun o _ => hfresh o
    · rw [owned_setFork] at ho
      rcases eq_or_ne o (.copy t) with rfl | hne
      · rw [Function.update_self] at ho
        cases ho
        exact hused
      · rw [Function.update_of_ne hne] at ho
        exact h₁.used o a' ho
    · rcases eq_or_ne v t with rfl | hvt
      · simp only [setFork, Function.update_self] at hv
        cases hv
        exact ⟨hsize, hle⟩
      · exact h₁.copyFits v l (by simpa [setFork, hvt] using hv)
    · exact h.forks.forkee t (by simp [hf])
    · exact h.forks.size t n u (by rw [hf]; exact hn) hu

theorem forkLoad (h : Inv s) (hs : s.step (.forkLoad t) = some s') : Inv s' := by
  simp only [step] at hs
  split at hs
  case h_2 => cases hs
  case h_1 copy p stack killed hf ht =>
    obtain ⟨list, hl, rfl⟩ := Option.map_eq_some_iff.mp hs
    refine ⟨h.arrays.setFork (by rw [hf]; rfl), h.placed.mono rfl fun _ => subset_rfl,
      h.forks.setFork (fun _ => h.forks.forkee t (by simp [hf])) (fun n u hn hu => ?_) ?_⟩
    · exact h.forks.size t n u (by rw [hf]; exact hn) hu
    · rintro l source i u ⟨⟩ - hlt
      exact absurd hlt (Nat.not_lt_zero _)

theorem forkCopy (h : Inv s) (hok : s.Undisturbed (.forkCopy t))
    (hs : s.step (.forkCopy t) = some s') : Inv s' := by
  simp only [step] at hs
  split at hs
  case h_2 => cases hs
  case h_1 list source i hf =>
    rw [Option.ite_none_right_eq_some, Option.some.injEq] at hs
    obtain ⟨hi, rfl⟩ := hs
    have hcopy : s.owned (.copy t) = some list.array := by simp [owned, hf, ForkPc.list]
    obtain ⟨forkee, hu, hkilled⟩ := h.forks.forkee t (by simp [hf])
    have hcur : s.Current forkee.process source := hok _ hu source (by rw [hf]; rfl)
    -- the other forks do not see the byte
    have hrest : Forks ((s.setFork t .out).setByte list.array i (s.mem source i)) := by
      refine (h.forks.setFork (absurd rfl) (by rintro _ _ ⟨⟩) (by rintro _ _ _ _ ⟨⟩)).setByte
        fun v hv => ?_
      rw [owned_setFork] at hv
      rcases eq_or_ne v t with rfl | hvt
      · simp [ForkPc.list] at hv
      · rw [Function.update_of_ne (by simpa using hvt)] at hv
        cases h.arrays.exclusive _ _ _ hv hcopy
        exact hvt rfl
    have hstate : (s.setByte list.array i (s.mem source i)).setFork t (.copy list source (i + 1)) =
        ((s.setFork t .out).setByte list.array i (s.mem source i)).setFork t
          (.copy list source (i + 1)) := by
      simp only [setFork, Stacks.setByte, Function.update_idem]
    refine ⟨(h.arrays.setByte).setFork ?_, h.placed.mono rfl fun q => ?_, ?_⟩
    · exact (congrArg ForkPc.list hf).symm
    · refine (taken_setByte_of_ne fun hq => ?_).ge
      exact h.arrays.home_ne_copy hq hcopy
    · rw [hstate]
      refine hrest.setFork (fun _ => ⟨forkee, hu, hkilled⟩) (fun n u hn hu' => ?_) ?_
      · exact h.forks.size t n u (by rw [hf]; exact hn) hu'
      · rintro l src j u ⟨⟩ hu' hlt
        change s.task t = some u at hu'
        rw [hu, Option.some.injEq] at hu'
        subst hu'
        rcases Nat.lt_succ_iff_lt_or_eq.mp hlt with hlt | heq
        · have := h.forks.copied t list source i forkee hf hu hlt
          simpa [Stacks.setByte, setFork, hlt.ne] using this
        · obtain ⟨l, hl, hsz, a', ha', hmark⟩ := (h.placed.stackSlot_mem h.arrays hu).1
          rw [home_of_current hcur hl, Option.some.injEq] at ha'
          subst ha'
          simpa [Stacks.setByte, setFork, heq] using heq ▸ hmark

theorem forkTask {t' : τ} (h : Inv s) (hs : s.step (.forkTask t p t') = some s') : Inv s' := by
  simp only [step] at hs
  split at hs
  case h_2 => cases hs
  case h_1 list source i forkee hf ht hnone =>
    split_ifs at hs with hi
    rw [Stacks.insertTask] at hs
    split at hs
    case h_1 => cases hs
    case h_2 hfree =>
      cases hs
      set s₁ := (s.setList p list).setFork t .out with hs₁
      have hcopy : s.owned (.copy t) = some list.array := by simp [owned, hf, ForkPc.list]
      have hg : s.growth p = none := by
        by_contra hg
        exact h.arrays.born p hg hnone
      have howned : s₁.owned = Function.update (Function.update s.owned (.copy t) none) (.list p)
          (some list.array) := by
        rw [hs₁, owned_setFork, owned_setList, Function.update_comm (by simp)]
        rfl
      have hslot := h.forks.size t list.size forkee (by rw [hf]; rfl) ht
      have hmark := h.forks.copied t list source i forkee hf ht (by omega)
      obtain ⟨hmem, hstack⟩ := h.placed.stackSlot_mem h.arrays ht
      have hl₁ : s₁.stackList p = some list := Function.update_self ..
      have hempty : s.taken p = ∅ := by
        rw [Set.eq_empty_iff_forall_notMem]
        rintro j ⟨l, hl, -⟩
        rw [hnone] at hl
        cases hl
      have hsub : ∀ q, s.taken q ⊆ s₁.taken q := by
        intro q
        rcases eq_or_ne q p with rfl | hne
        · rw [hempty]
          exact Set.empty_subset _
        · have hhome : s₁.home q = s.home q := by
            rw [home, home, howned, Function.update_of_ne (by simp),
              Function.update_of_ne (by simp),
              Function.update_of_ne (by simpa using hne), Function.update_of_ne (by simp)]
          have hlist : s₁.stackList q = s.stackList q := Function.update_of_ne hne ..
          exact (taken_congr hlist hhome fun _ _ => rfl).ge
      have harr : Arrays s₁ := by
        refine ⟨howned ▸ h.arrays.exclusive.handOver (by simp) hcopy, fun o a' ho => ?_,
          fun q l hq => ?_, fun q hq => ?_, fun q l hq hq' => ?_, fun v l hv => ?_⟩
        · rw [howned] at ho
          rcases eq_or_ne o (.list p) with rfl | hne
          · rw [Function.update_self] at ho
            exact h.arrays.used (.copy t) a' (hcopy.trans ho)
          · rw [Function.update_of_ne hne] at ho
            rcases eq_or_ne o (.copy t) with rfl | hne'
            · simp at ho
            · rw [Function.update_of_ne hne'] at ho
              exact h.arrays.used o a' ho
        · rcases eq_or_ne q p with rfl | hne
          · rw [hl₁, Option.some.injEq] at hq
            exact hq ▸ h.arrays.copyFits t list (by rw [hf]; rfl)
          · exact h.arrays.fits q l (by simpa [hs₁, setList, setFork, hne] using hq)
        · rcases eq_or_ne q p with rfl | hne
          · simp [hl₁]
          · simpa [hs₁, setList, setFork, hne] using h.arrays.born q hq
        · rcases eq_or_ne q p with rfl | hne
          · exact absurd hg hq'
          · exact h.arrays.room q l (by simpa [hs₁, setList, setFork, hne] using hq) hq'
        · rcases eq_or_ne v t with rfl | hvt
          · simp [hs₁, setFork, ForkPc.list] at hv
          · exact h.arrays.copyFits v l (by simpa [hs₁, setList, setFork, hvt] using hv)
      have hlist : Forks (s.setList p list) :=
        h.forks.mono rfl (fun _ _ => rfl) fun _ _ _ => rfl
      have hforks : Forks s₁ := hlist.setFork (absurd rfl) (by rintro _ _ ⟨⟩) (by rintro _ _ _ _ ⟨⟩)
      refine ⟨⟨harr.exclusive, harr.used, harr.fits, harr.born, harr.room, harr.copyFits⟩, ?_,
        hforks.setTask (hforks.out_of_none hfree)⟩
      rw [hstack]
      refine h.placed.add h.arrays rfl hfree hsub ?_ (h.arrays.lt_of_taken hmem) (by simp [hempty])
      rw [mem_taken_iff hl₁ (home_of_idle hg hl₁)]
      exact ⟨hslot, hmark⟩

theorem step {e : Event π τ} (h : Inv s) (hok : s.Undisturbed e) (hs : s.step e = some s') :
    Inv s' := by
  cases e with
  | newProcess p a t => exact h.newProcess hs
  | addTask p t => exact h.addTask hs
  | grow p a => exact h.grow hs
  | growCopy p => exact h.growCopy hs
  | growPush p t => exact h.growPush hs
  | forkSize t => exact h.forkSize hs
  | forkAlloc t a => exact h.forkAlloc hok hs
  | forkLoad t => exact h.forkLoad hs
  | forkCopy t => exact h.forkCopy hok hs
  | forkTask t p t' => exact h.forkTask hs
  | exit t => exact h.exit hs
  | reap t => exact h.reap hs
  | write a i b => exact h.write hs

end Inv

/-- The stacks of the tasks of a process are apart and marked, and `releaseStack` passes its
assertions whenever the lock of the list is free. -/
structure Separate [DecidableEq π] (s : Stacks π τ) : Prop where
  disjoint : ∀ t t' u u', t ≠ t' → s.task t = some u → s.task t' = some u' →
    u.process = u'.process → Disjoint (stackRegion u.stack) (stackRegion u'.stack)
  marked : ∀ t u, s.task t = some u → s.growth u.process = none →
    ∃ list ∈ s.stackList u.process, stackSlot u.stack < list.size ∧
      s.mem list.array (stackSlot u.stack) = true
  released : ∀ t u, s.task t = some u → s.growth u.process = none →
    ∃ s', s.releaseStack u.process u.stack = some s'

theorem Inv.separate [DecidableEq π] (h : Inv s) : Separate s := by
  refine ⟨fun t t' u u' hne ht ht' hp => ?_, fun t u ht hg => ?_, fun t u ht hg => ?_⟩
  · obtain ⟨i, hi, he⟩ := h.placed.slot t u ht
    obtain ⟨j, hj, he'⟩ := h.placed.slot t' u' ht'
    rw [he, he']
    refine disjoint_stackRegion (h.arrays.lt_of_taken hi) (h.arrays.lt_of_taken hj) fun hij => ?_
    exact hne (h.placed.apart t t' u u' ht ht' hp (by rw [he, he', hij]))
  · obtain ⟨list, hl, hlt, a, ha, hmark⟩ := (h.placed.stackSlot_mem h.arrays ht).1
    rw [home_of_idle hg hl, Option.some.injEq] at ha
    exact ⟨list, hl, hlt, ha ▸ hmark⟩
  · obtain ⟨hmem, hstack⟩ := h.placed.stackSlot_mem h.arrays ht
    obtain ⟨s', hs', -⟩ := releaseStack_spec h.arrays hg hmem
    exact ⟨s', hstack ▸ hs'⟩

/-- In every run of threads that start tasks, exit and fork, and of the cleanup task, in which no
copy of a fork is disturbed, the stacks stay apart. -/
theorem separate_of_undisturbed [DecidableEq π] (s : Stacks π τ)
    (h : Run.Reachable step Undisturbed init s) : Separate s := by
  have hinv : Inv s := h.invariant inv_init fun _ _ _ hinv hok hs => hinv.step hok hs
  exact hinv.separate

/-- The task 0 starts the task 1 and forks; the task 1 exits. -/
def forkedCalls : List (Event ℕ ℕ) :=
  [.newProcess 0 10 0, .addTask 0 1, .forkSize 0, .forkAlloc 0 20, .exit 1, .forkLoad 0,
    .forkCopy 0, .reap 1, .forkCopy 0, .forkTask 0 1 2, .addTask 1 3]

theorem separate_of_undisturbed_forkedCalls : ∃ s : Stacks ℕ ℕ,
    Run.guardedRun step Undisturbed init forkedCalls = some s ∧ (s.task 3).isSome ∧
      Separate s := by
  have hrun : (Run.guardedRun step Undisturbed (init : Stacks ℕ ℕ) forkedCalls).map
      (fun s => (s.task 3).isSome) = some true := by
    decide_cbv
  obtain ⟨s, hs, htask⟩ := Option.map_eq_some_iff.mp hrun
  exact ⟨s, hs, htask, separate_of_undisturbed s (Run.reachable_of_guardedRun hs)⟩

/-- A process with 16 tasks starts another one, and its vector gets an array that is not filled
yet. Meanwhile the task 0 forks. -/
def crowdedCalls : List (Event ℕ ℕ) :=
  Event.newProcess 0 10 0 :: (List.range 15).map (fun i => .addTask 0 (i + 1)) ++
    [Event.grow 0 20, .forkSize 0, .forkAlloc 0 30, .forkLoad 0] ++
    List.replicate 16 (Event.forkCopy 0) ++ [Event.forkTask 0 1 16]

/-- No slot is marked in the child. -/
theorem not_forall_separate : ¬ ∀ s : Stacks ℕ ℕ,
    Run.Reachable step (fun _ _ => True) init s → Separate s := by
  intro hall
  have hrun : (crowdedCalls.foldlM step (init : Stacks ℕ ℕ)).map (fun s =>
      decide ((s.task 16).map (fun u => (u.process, u.stack)) = some (1, userBreak)) &&
      (s.growth 1).isNone && decide (s.stackList 1 = some ⟨16, 32, 30⟩) &&
      !s.mem 30 0) = some true := by
    decide_cbv
  obtain ⟨s, hs, he⟩ := Option.map_eq_some_iff.mp hrun
  simp only [Bool.and_eq_true, decide_eq_true_eq, Option.isNone_iff_eq_none, Bool.not_eq_true',
    Option.map_eq_some_iff, Prod.mk.injEq] at he
  obtain ⟨⟨⟨⟨u, hu, hp, hst⟩, hg⟩, hl⟩, hmem⟩ := he
  obtain ⟨list, hl', -, hmark⟩ :=
    (hall s (Run.reachable_of_foldlM hs)).marked 16 u hu (by rw [hp, hg])
  rw [hp, hl, Option.mem_some_iff] at hl'
  have hslot : stackSlot u.stack = 0 := by
    rw [hst]
    decide
  rw [← hl', hslot, hmem] at hmark
  cases hmark

end Stacks

end Koerix
