import Koerix.Lib.Exclusive
import Koerix.Proc.Stacks

/-! # Who has which stack

The arrays of the vectors belong to processes, to a `push_back` that has not
copied the old one yet, and to forks. The slots of a process are those marked
in the array that counts at the moment. Every task has a slot of its own that
is marked, and a fork whose copy is not disturbed marks the slot of its task.
-/

namespace Koerix

/-- The vector that a fork makes. -/
def ForkPc.list : ForkPc → Option BoolVector
  | .load list | .copy list _ _ => some list
  | .out | .alloc _ => none

/-- The size that a fork has read. -/
def ForkPc.size : ForkPc → Option ℕ
  | .alloc size => some size
  | .load list | .copy list _ _ => some list.size
  | .out => none

/-- The size that a fork has read and not used yet. -/
def ForkPc.asked : ForkPc → Option ℕ
  | .alloc size => some size
  | _ => none

/-- The array that a fork copies from. -/
def ForkPc.source : ForkPc → Option ℕ
  | .copy _ source _ => some source
  | _ => none

/-- The items have room in an array of the heap. -/
def BoolVector.Fits (list : BoolVector) : Prop := list.size ≤ list.capacity ∧ list.capacity ≤ 2 ^ 40

namespace Stacks

variable {π τ : Type}

/-- What an array belongs to. -/
inductive Owner (π τ : Type)
  /-- the vector of a process -/
  | list (p : π)
  /-- a `push_back` that has not copied it yet -/
  | old (p : π)
  /-- a fork -/
  | copy (t : τ)
  deriving DecidableEq

def owned (s : Stacks π τ) : Owner π τ → Option ℕ
  | .list p => (s.stackList p).map BoolVector.array
  | .old p => (s.growth p).bind fun g => if g.copied then none else some g.old
  | .copy t => (s.fork t).list.map BoolVector.array

/-- The array with the slots of a process. -/
def home (s : Stacks π τ) (p : π) : Option ℕ := s.owned (.old p) <|> s.owned (.list p)

/-- The slots of a process that are marked. -/
def taken (s : Stacks π τ) (p : π) : Set ℕ :=
  { i | ∃ list, s.stackList p = some list ∧ i < list.size ∧
      ∃ a, s.home p = some a ∧ s.mem a i = true }

/-- The arrays are in use, have one owner each, and are large enough. -/
structure Arrays (s : Stacks π τ) : Prop where
  exclusive : Exclusive s.owned
  used : ∀ o a, s.owned o = some a → s.used a = true
  fits : ∀ p list, s.stackList p = some list → list.Fits
  born : ∀ p, s.growth p ≠ none → s.stackList p ≠ none
  room : ∀ p list, s.stackList p = some list → s.growth p ≠ none → list.size < list.capacity
  copyFits : ∀ t list, (s.fork t).list = some list → list.Fits

/-- Every task has a slot of its own. -/
structure Placed (s : Stacks π τ) : Prop where
  slot : ∀ t u, s.task t = some u → ∃ i ∈ s.taken u.process, u.stack = stackPtr i
  apart : ∀ t t' u u', s.task t = some u → s.task t' = some u' → u.process = u'.process →
    u.stack = u'.stack → t = t'

/-- A fork copies the slot of its task. -/
structure Forks (s : Stacks π τ) : Prop where
  forkee : ∀ t, s.fork t ≠ .out → ∃ u, s.task t = some u ∧ u.killed = false
  size : ∀ t n u, (s.fork t).size = some n → s.task t = some u → stackSlot u.stack < n
  copied : ∀ t list source i u, s.fork t = .copy list source i → s.task t = some u →
    stackSlot u.stack < i → s.mem list.array (stackSlot u.stack) = true

structure Inv (s : Stacks π τ) : Prop where
  arrays : Arrays s
  placed : Placed s
  forks : Forks s

theorem inv_init : Inv (init : Stacks π τ) where
  arrays :=
    { exclusive := fun o o' a ho => by cases o <;> cases ho
      used := fun o a ho => by cases o <;> cases ho
      fits := fun p list hp => by cases hp
      born := fun p hp => absurd rfl hp
      room := fun p list hp => by cases hp
      copyFits := fun t list ht => by cases ht }
  placed := ⟨nofun, nofun⟩
  forks := ⟨fun t ht => absurd rfl ht, nofun, nofun⟩

variable {s s' : Stacks π τ} {p q : π} {t : τ} {a i : ℕ} {b : Bool} {list : BoolVector}

theorem home_cases (h : s.home p = some a) :
    s.owned (.old p) = some a ∨ s.owned (.list p) = some a := by
  rw [home, Option.orElse_eq_orElse, Option.orElse_eq_or, Option.or_eq_some_iff] at h
  exact h.imp id And.right

theorem home_of_idle (hg : s.growth p = none) (hl : s.stackList p = some list) :
    s.home p = some list.array := by
  simp [home, owned, hg, hl]

namespace Arrays

theorem home_inj (h : Arrays s) (hp : s.home p = some a) (hq : s.home q = some a) : p = q := by
  rcases home_cases hp with hp | hp <;> rcases home_cases hq with hq | hq <;>
    have := h.exclusive _ _ _ hp hq <;> cases this
  all_goals rfl

theorem home_ne_copy (h : Arrays s) (hp : s.home p = some a) : s.owned (.copy t) ≠ some a := by
  intro ht
  rcases home_cases hp with hp | hp <;> cases h.exclusive _ _ _ hp ht

theorem lt_of_taken (h : Arrays s) (hi : i ∈ s.taken p) : i < 2 ^ 40 := by
  obtain ⟨list, hl, hlt, -⟩ := hi
  have := h.fits p list hl
  unfold BoolVector.Fits at this
  omega

end Arrays

theorem taken_congr (hlist : s'.stackList p = s.stackList p) (hhome : s'.home p = s.home p)
    (hmem : ∀ a, s.home p = some a → s'.mem a = s.mem a) : s'.taken p = s.taken p := by
  ext i
  simp only [taken, hlist, hhome, Set.mem_ofPred_eq]
  refine exists_congr fun list => and_congr_right fun _ => and_congr_right fun _ =>
    exists_congr fun a => and_congr_right fun ha => ?_
  rw [hmem a ha]

theorem Placed.mono (h : Placed s) (htask : s'.task = s.task)
    (htaken : ∀ p, s.taken p ⊆ s'.taken p) : Placed s' where
  slot t u ht := by
    obtain ⟨i, hi, he⟩ := h.slot t u (htask ▸ ht)
    exact ⟨i, htaken _ hi, he⟩
  apart t t' u u' ht ht' := h.apart t t' u u' (htask ▸ ht) (htask ▸ ht')

theorem Forks.mono (h : Forks s) (hfork : s'.fork = s.fork)
    (htask : ∀ t, s.fork t ≠ .out → s'.task t = s.task t)
    (hmem : ∀ t list, (s.fork t).list = some list → s'.mem list.array = s.mem list.array) :
    Forks s' where
  forkee t ht := by
    rw [hfork] at ht
    rw [htask t ht]
    exact h.forkee t ht
  size t n u hn ht := by
    rw [hfork] at hn
    have hne : s.fork t ≠ .out := by
      intro hout
      rw [hout] at hn
      cases hn
    exact h.size t n u hn (htask t hne ▸ ht)
  copied t list source i u hf ht hlt := by
    rw [hfork] at hf
    have hne : s.fork t ≠ .out := by
      intro hout
      rw [hout] at hf
      cases hf
    rw [hmem t list (by rw [hf]; rfl)]
    exact h.copied t list source i u hf (htask t hne ▸ ht) hlt

/-! ### Memory -/

theorem newArray_eq_some {capacity : ℕ} : s.newArray a capacity = some s' ↔
    s.used a = false ∧ capacity + Heap.headerSize ≤ Heap.kheapEnd + 1 - Heap.kheapStart ∧
      s' = { s with
        mem := Function.update s.mem a fun _ => false
        used := Function.update s.used a true } := by
  rw [newArray, Option.ite_none_right_eq_some, Option.some.injEq, and_assoc, eq_comm (a := s')]

theorem mem_taken_iff (hl : s.stackList p = some list) (hh : s.home p = some a) :
    i ∈ s.taken p ↔ i < list.size ∧ s.mem a i = true := by
  simp [taken, hl, hh]

theorem taken_setByte_of_ne (hne : s.home p ≠ some a) : (s.setByte a i b).taken p = s.taken p := by
  refine taken_congr rfl rfl fun a' ha' => ?_
  have hne' : a' ≠ a := by
    rintro rfl
    exact hne ha'
  simp [setByte, hne']

theorem Arrays.setByte (h : Arrays s) : Arrays (s.setByte a i b) :=
  ⟨h.exclusive, h.used, h.fits, h.born, h.room, h.copyFits⟩

theorem Forks.setByte (h : Forks s) (hne : ∀ t, s.owned (.copy t) ≠ some a) :
    Forks (s.setByte a i b) := by
  refine h.mono rfl (fun _ _ => rfl) fun t list hl => ?_
  have hne' : list.array ≠ a := by
    rintro rfl
    exact hne t (by simp [owned, hl])
  simp [Stacks.setByte, hne']

theorem newArray_spec {capacity : ℕ} (h : Arrays s) (hs : s.newArray a capacity = some s') :
    Arrays s' ∧ (∀ o, s'.owned o ≠ some a) ∧ s'.used a = true ∧ capacity ≤ 2 ^ 40 ∧
      (∀ p, s'.taken p = s.taken p) ∧ (Forks s → Forks s') := by
  obtain ⟨hfree, hcap, rfl⟩ := newArray_eq_some.mp hs
  have hfresh : ∀ o, s.owned o ≠ some a := by
    intro o ho
    rw [h.used o a ho] at hfree
    cases hfree
  refine ⟨⟨h.exclusive, fun o a' ho => ?_, h.fits, h.born, h.room, h.copyFits⟩, hfresh,
    Function.update_self .., ?_, fun p => taken_congr rfl rfl fun a' ha' => ?_, fun hf => ?_⟩
  · rcases eq_or_ne a' a with rfl | hne
    · exact Function.update_self ..
    · exact (Function.update_of_ne hne ..).trans (h.used o a' ho)
  · simp only [Heap.headerSize, Heap.kheapEnd, Heap.kheapStart] at hcap
    omega
  · refine Function.update_of_ne ?_ ..
    rintro rfl
    exact (home_cases ha').elim (hfresh _) (hfresh _)
  · refine hf.mono rfl (fun _ _ => rfl) fun t list hl => Function.update_of_ne ?_ ..
    rintro rfl
    exact hfresh (.copy t) (by simp [owned, hl])

/-- The process `p` has marked the slot `i`. -/
structure Marks (s s' : Stacks π τ) (p : π) (i : ℕ) : Prop where
  fresh : i ∉ s.taken p
  lt : i < 2 ^ 40
  self : s'.taken p = insert i (s.taken p)
  others : ∀ q, q ≠ p → s'.taken q = s.taken q

theorem marks_setByte (h : Arrays s) (hl : s.stackList p = some list)
    (hh : s.home p = some list.array) (hi : i < list.size) (hfree : s.mem list.array i = false) :
    Marks s (s.setByte list.array i true) p i where
  fresh hmem := by
    rw [mem_taken_iff hl hh, hfree] at hmem
    cases hmem.2
  lt := by
    have := h.fits p list hl
    unfold BoolVector.Fits at this
    omega
  self := by
    ext j
    have hh' : (s.setByte list.array i true).home p = some list.array := hh
    rw [mem_taken_iff (s := s.setByte list.array i true) hl hh', Set.mem_insert_iff,
      mem_taken_iff hl hh]
    rcases eq_or_ne j i with rfl | hne <;> simp [setByte, *]
  others q hq := taken_setByte_of_ne fun hq' => hq (h.home_inj hq' hh)

variable [DecidableEq π] [DecidableEq τ]

theorem owned_setList (s : Stacks π τ) (p : π) (list : BoolVector) :
    (s.setList p list).owned = Function.update s.owned (.list p) (some list.array) := by
  funext o
  cases o with
  | list q => rcases eq_or_ne q p with rfl | hne <;> simp [owned, setList, *]
  | old q => simp [owned, setList]
  | copy t => simp [owned, setList]

theorem owned_setGrowth (s : Stacks π τ) (p : π) (g : Option Growth) :
    (s.setGrowth p g).owned = Function.update s.owned (.old p)
      (g.bind fun g => if g.copied then none else some g.old) := by
  funext o
  cases o with
  | list q => simp [owned, setGrowth]
  | old q => rcases eq_or_ne q p with rfl | hne <;> simp [owned, setGrowth, *]
  | copy t => simp [owned, setGrowth]

theorem owned_setFork (s : Stacks π τ) (t : τ) (f : ForkPc) :
    (s.setFork t f).owned = Function.update s.owned (.copy t) (f.list.map BoolVector.array) := by
  funext o
  cases o with
  | list q => simp [owned, setFork]
  | old q => simp [owned, setFork]
  | copy u => rcases eq_or_ne u t with rfl | hne <;> simp [owned, setFork, *]

/-- The slot behind the last one is marked. -/
theorem marks_push (h : Arrays s) (hl : s.stackList p = some list)
    (hold : s.owned (.old p) = none) (hroom : list.size < list.capacity) :
    Arrays ((s.push p list).setGrowth p none) ∧
      Marks s ((s.push p list).setGrowth p none) p list.size ∧
      (Forks s → Forks ((s.push p list).setGrowth p none)) := by
  have hfits := h.fits p list hl
  unfold BoolVector.Fits at hfits
  have hlist : s.owned (.list p) = some list.array := by simp [owned, hl]
  have hh : s.home p = some list.array := by simp [home, hold, hlist]
  have howned : ((s.push p list).setGrowth p none).owned = s.owned := by
    rw [owned_setGrowth, push, owned_setList]
    exact (congrArg (Function.update · _ _) (Function.update_eq_self_iff.mpr hlist.symm)).trans
      (Function.update_eq_self_iff.mpr hold.symm)
  have hmem : ∀ a', a' ≠ list.array → ((s.push p list).setGrowth p none).mem a' = s.mem a' :=
    fun a' hne => by simp [push, setGrowth, setList, Stacks.setByte, hne]
  refine ⟨⟨howned ▸ h.exclusive, howned ▸ h.used, fun q l hq => ?_, fun q hq => ?_,
    fun q l hq hg => ?_, h.copyFits⟩, ⟨fun hi => ?_, by omega, ?_, fun q hq => ?_⟩, fun hf => ?_⟩
  · rcases eq_or_ne q p with rfl | hne
    · simp only [push, setGrowth, setList, Function.update_self, Option.some.injEq] at hq
      rw [← hq]
      exact ⟨hroom, hfits.2⟩
    · exact h.fits q l (by simpa [push, setGrowth, setList, Stacks.setByte, hne] using hq)
  · rcases eq_or_ne q p with rfl | hne
    · simp [setGrowth] at hq
    · simp only [setGrowth, push, setList, Function.update_of_ne hne] at hq ⊢
      exact h.born q hq
  · rcases eq_or_ne q p with rfl | hne
    · simp [setGrowth] at hg
    · simp only [setGrowth, push, setList, Function.update_of_ne hne] at hq hg
      exact h.room q l hq hg
  · rw [mem_taken_iff hl hh] at hi
    exact lt_irrefl _ hi.1
  · ext j
    have hh' : ((s.push p list).setGrowth p none).home p = some list.array := by
      rw [home, howned]
      exact hh
    have hl' : ((s.push p list).setGrowth p none).stackList p =
        some { list with size := list.size + 1 } := Function.update_self ..
    rw [mem_taken_iff hl' hh', Set.mem_insert_iff, mem_taken_iff hl hh]
    rcases eq_or_ne j list.size with rfl | hne
    · simp [push, setGrowth, setList, Stacks.setByte]
    · have hlt : j < list.size + 1 ↔ j < list.size := by omega
      simp only [push, setGrowth, setList, Stacks.setByte, Function.update_self,
        Function.update_of_ne hne, hne, false_or, hlt]
  · refine taken_congr ?_ ?_ fun a' ha' => hmem a' ?_
    · simp [push, setGrowth, setList, Stacks.setByte, hq]
    · rw [home, howned]
      rfl
    · rintro rfl
      exact hq (h.home_inj ha' hh)
  · refine hf.mono rfl (fun _ _ => rfl) fun t l hl' => hmem _ ?_
    intro he
    exact h.home_ne_copy (t := t) hh (by simp [owned, hl', he])

/-- `allocStack` marks a slot that was free. -/
theorem allocStack_spec {stack : ℕ} (h : Arrays s) (hg : s.growth p = none)
    (hs : s.allocStack p = some (stack, s')) :
    Arrays s' ∧ s'.task = s.task ∧ (Forks s → Forks s') ∧
      ∃ i, stack = stackPtr i ∧ Marks s s' p i := by
  obtain ⟨list, hl, hs⟩ := Option.bind_eq_some_iff.mp hs
  have hh := home_of_idle hg hl
  split at hs
  case h_1 i hi =>
    cases hs
    have hmem := List.mem_of_find?_eq_some hi
    have hfree := List.find?_some hi
    rw [List.mem_range] at hmem
    rw [Bool.not_eq_true'] at hfree
    exact ⟨h.setByte, rfl, fun hf => hf.setByte fun t => h.home_ne_copy hh, i, rfl,
      marks_setByte h hl hh hmem hfree⟩
  case h_2 hnone =>
    split_ifs at hs with hfull
    cases hs
    have hold : s.owned (.old p) = none := by simp [owned, hg]
    obtain ⟨harr, hmarks, hforks⟩ := marks_push h hl hold (by omega)
    have hsame : (s.push p list).setGrowth p none = s.push p list := by
      have : Function.update s.growth p none = s.growth := Function.update_eq_self_iff.mpr hg.symm
      simp only [setGrowth, push, setList, Stacks.setByte, this]
    rw [hsame] at harr hmarks hforks
    exact ⟨harr, rfl, hforks, _, rfl, hmarks⟩

theorem Arrays.setList (h : Arrays s) (hfresh : ∀ o, o ≠ .list p → s.owned o ≠ some list.array)
    (hused : s.used list.array = true) (hfits : list.Fits)
    (hroom : s.growth p ≠ none → list.size < list.capacity) : Arrays (s.setList p list) where
  exclusive := by
    rw [owned_setList]
    exact h.exclusive.take hfresh
  used o a ho := by
    rw [owned_setList] at ho
    rcases eq_or_ne o (.list p) with rfl | hne
    · rw [Function.update_self, Option.some.injEq] at ho
      exact ho ▸ hused
    · rw [Function.update_of_ne hne] at ho
      exact h.used o a ho
  fits q l hq := by
    rcases eq_or_ne q p with rfl | hne
    · simp only [Stacks.setList, Function.update_self, Option.some.injEq] at hq
      exact hq ▸ hfits
    · exact h.fits q l (by simpa [Stacks.setList, hne] using hq)
  born q hq := by
    rcases eq_or_ne q p with rfl | hne
    · simp [Stacks.setList]
    · simpa [Stacks.setList, hne] using h.born q hq
  room q l hq hg := by
    rcases eq_or_ne q p with rfl | hne
    · simp only [Stacks.setList, Function.update_self, Option.some.injEq] at hq
      exact hq ▸ hroom hg
    · exact h.room q l (by simpa [Stacks.setList, hne] using hq) hg
  copyFits := h.copyFits

/-- The process `p` has released the slot `i`. -/
structure Unmarks (s s' : Stacks π τ) (p : π) (i : ℕ) : Prop where
  self : s'.taken p = s.taken p \ {i}
  others : ∀ q, q ≠ p → s'.taken q = s.taken q

/-- `releaseStack` of a marked slot passes its assertions. -/
theorem releaseStack_spec (h : Arrays s) (hg : s.growth p = none) (hi : i ∈ s.taken p) :
    ∃ s', s.releaseStack p (stackPtr i) = some s' ∧ Arrays s' ∧ s'.task = s.task ∧
      (Forks s → Forks s') ∧ Unmarks s s' p i := by
  have hslot := stackSlot_stackPtr (h.lt_of_taken hi)
  obtain ⟨list, hl, hlt, a, hh, hmem⟩ := hi
  obtain rfl : list.array = a := by
    rw [home_of_idle hg hl, Option.some.injEq] at hh
    exact hh
  simp only [releaseStack, hl, hslot, hlt, hmem, Option.bind_eq_bind, Option.bind_some, not_true,
    if_false, ne_eq, Option.pure_def]
  split_ifs with hlast
  · -- the last slot: the vector shrinks
    have howned : (s.setList p { list with size := list.size - 1 }).owned = s.owned := by
      rw [owned_setList]
      exact Function.update_eq_self_iff.mpr (by simp [owned, hl])
    have hfits := h.fits p list hl
    have hlist : s.owned (.list p) = some list.array := by simp [owned, hl]
    refine ⟨_, rfl, h.setList (fun o ho ho' => ho (h.exclusive o _ _ ho' hlist)) (h.used _ _ hlist)
      ⟨(Nat.sub_le _ _).trans hfits.1, hfits.2⟩ (absurd hg), rfl,
      fun hf => hf.mono rfl (fun _ _ => rfl) fun _ _ _ => rfl,
      ?_, fun q hq => taken_congr (by simp [setList, hq]) (by rw [home, howned]; rfl)
        fun _ _ => rfl⟩
    · ext j
      have hl' : (s.setList p { list with size := list.size - 1 }).stackList p =
          some { list with size := list.size - 1 } := Function.update_self ..
      have hh' : (s.setList p { list with size := list.size - 1 }).home p = some list.array := by
        rw [home, howned]
        exact hh
      have hlt' : j < list.size - 1 ↔ j < list.size ∧ j ≠ i := by omega
      rw [mem_taken_iff hl' hh', Set.mem_sdiff, mem_taken_iff hl hh, Set.mem_singleton_iff]
      simp only [setList, hlt']
      tauto
  · refine ⟨_, rfl, h.setByte, rfl, fun hf => hf.setByte fun t => h.home_ne_copy hh, ?_,
      fun q hq => taken_setByte_of_ne fun hq' => hq (h.home_inj hq' hh)⟩
    ext j
    have hh' : (s.setByte list.array i false).home p = some list.array := hh
    rw [mem_taken_iff (s := s.setByte list.array i false) hl hh', Set.mem_sdiff,
      mem_taken_iff hl hh, Set.mem_singleton_iff]
    rcases eq_or_ne j i with rfl | hne <;> simp [Stacks.setByte, *]

/-- The vector of a process gets a new array, and the old one stays its home. -/
theorem grow_spec {capacity : ℕ} {s₁ : Stacks π τ} (h : Arrays s) (hg : s.growth p = none)
    (hl : s.stackList p = some list) (hcap : list.size < capacity)
    (hs : s.newArray a capacity = some s₁) :
    Arrays ((s₁.setList p ⟨list.size, capacity, a⟩).setGrowth p (some ⟨list.array, false⟩)) ∧
      (∀ q, ((s₁.setList p ⟨list.size, capacity, a⟩).setGrowth p
        (some ⟨list.array, false⟩)).taken q = s.taken q) ∧ (Forks s → Forks
        ((s₁.setList p ⟨list.size, capacity, a⟩).setGrowth p (some ⟨list.array, false⟩))) := by
  obtain ⟨h₁, hfresh, hused, hle, htaken, hforks⟩ := newArray_spec h hs
  obtain ⟨-, -, rfl⟩ := newArray_eq_some.mp hs
  set s₁ : Stacks π τ := { s with
    mem := Function.update s.mem a fun _ => false
    used := Function.update s.used a true }
  set s₂ := (s₁.setList p ⟨list.size, capacity, a⟩).setGrowth p (some ⟨list.array, false⟩)
    with hs₂
  have hlist : s.owned (.list p) = some list.array := by simp [owned, hl]
  have hh := home_of_idle hg hl
  have howned : s₂.owned = Function.update (Function.update (Function.update s.owned (.list p) none)
      (.old p) (some list.array)) (.list p) (some a) := by
    rw [hs₂, owned_setGrowth, owned_setList, Function.update_comm (by simp), Function.update_comm
      (b := Owner.old p) (by simp), Function.update_idem]
    rfl
  have hhome : ∀ q, s₂.home q = s.home q := by
    intro q
    rw [home, howned]
    rcases eq_or_ne q p with rfl | hne
    · simp [hh]
    · simp [hne, home]
  refine ⟨⟨?_, fun o a' ho => ?_, fun q l hq => ?_, fun q hq => ?_, fun q l hq hg' => ?_,
    h₁.copyFits⟩, fun q => ?_, fun hf => (hforks hf).mono rfl (fun _ _ => rfl) fun _ _ _ => rfl⟩
  · rw [howned]
    refine (h.exclusive.handOver (by simp) hlist).take fun o ho ho' => ?_
    rcases eq_or_ne o (.old p) with rfl | hold
    · rw [Function.update_self, Option.some.injEq] at ho'
      exact hfresh (.list p) (ho' ▸ hlist)
    · rw [Function.update_of_ne hold, Function.update_of_ne ho] at ho'
      exact hfresh o ho'
  · rw [howned] at ho
    rcases eq_or_ne o (.list p) with rfl | hne
    · rw [Function.update_self, Option.some.injEq] at ho
      exact ho ▸ hused
    · rw [Function.update_of_ne hne] at ho
      rcases eq_or_ne o (.old p) with rfl | hold
      · rw [Function.update_self] at ho
        exact h₁.used (.list p) a' (hlist.trans ho)
      · rw [Function.update_of_ne hold, Function.update_of_ne hne] at ho
        exact h₁.used o a' ho
  · rcases eq_or_ne q p with rfl | hne
    · simp only [hs₂, setGrowth, setList, Function.update_self, Option.some.injEq] at hq
      exact hq ▸ ⟨hcap.le, hle⟩
    · exact h.fits q l (by simpa [hs₂, setGrowth, setList, hne] using hq)
  · rcases eq_or_ne q p with rfl | hne
    · simp [hs₂, setGrowth, setList]
    · simp only [hs₂, setGrowth, setList, Function.update_of_ne hne] at hq ⊢
      exact h.born q hq
  · rcases eq_or_ne q p with rfl | hne
    · simp only [hs₂, setGrowth, setList, Function.update_self, Option.some.injEq] at hq
      exact hq ▸ hcap
    · simp only [hs₂, setGrowth, setList, Function.update_of_ne hne] at hq hg'
      exact h.room q l hq hg'
  · have hmem : ∀ a', s.home q = some a' → s₂.mem a' = s.mem a' := by
      intro a' ha'
      refine Function.update_of_ne ?_ ..
      rintro rfl
      exact (home_cases ha').elim (hfresh (.old q)) (hfresh (.list q))
    rcases eq_or_ne q p with rfl | hne
    · ext j
      have hl₂ : s₂.stackList q = some ⟨list.size, capacity, a⟩ := by
        simp [hs₂, setGrowth, setList]
      rw [mem_taken_iff hl₂ ((hhome q).trans hh), mem_taken_iff hl hh, hmem _ hh]
    · exact taken_congr (by simp [hs₂, setGrowth, setList, hne, s₁]) (hhome q) hmem

/-- The new array gets the marks of the old one, which is given back. -/
theorem growCopy_spec {old : ℕ} (h : Arrays s) (hg : s.growth p = some ⟨old, false⟩)
    (hl : s.stackList p = some list)
    (hs : s.step (.growCopy p) = some s') :
    Arrays s' ∧ (∀ q, s'.taken q = s.taken q) ∧ s'.task = s.task ∧ (Forks s → Forks s') := by
  simp only [step, hg, hl, Option.some.injEq] at hs
  have hold : s.owned (.old p) = some old := by simp [owned, hg]
  have hlist : s.owned (.list p) = some list.array := by simp [owned, hl]
  have hh : s.home p = some old := by simp [home, hold]
  have howned : s'.owned = Function.update s.owned (.old p) none := by
    rw [← hs, owned_setGrowth]
    rfl
  have hmem : ∀ a', a' ≠ list.array → s'.mem a' = s.mem a' := fun a' hne => by
    rw [← hs]
    exact Function.update_of_ne hne ..
  have hh' : s'.home p = some list.array := by simp [home, howned, hlist]
  refine ⟨⟨?_, fun o a' ho => ?_, fun q l hq => h.fits q l (by rw [← hs] at hq; exact hq),
    fun q hq => ?_, fun q l hq hg' => ?_, by rw [← hs]; exact h.copyFits⟩, fun q => ?_,
    by rw [← hs]; rfl, fun hf => ?_⟩
  · rw [howned]
    exact h.exclusive.drop _
  · rw [howned] at ho
    have hne : o ≠ .old p := by
      rintro rfl
      simp at ho
    rw [Function.update_of_ne hne] at ho
    have hne' : a' ≠ old := by
      rintro rfl
      exact hne (h.exclusive _ _ _ ho hold)
    rw [← hs]
    exact (Function.update_of_ne hne' ..).trans (h.used o a' ho)
  · have hq' : s.growth q ≠ none := by
      rcases eq_or_ne q p with rfl | hne
      · simp [hg]
      · rw [← hs] at hq
        simpa [setGrowth, hne] using hq
    rw [← hs]
    exact h.born q hq'
  · have hq' : s.growth q ≠ none := by
      rcases eq_or_ne q p with rfl | hne
      · simp [hg]
      · rw [← hs] at hg'
        simpa [setGrowth, hne] using hg'
    exact h.room q l (by rw [← hs] at hq; exact hq) hq'
  · rcases eq_or_ne q p with rfl | hne
    · ext j
      have hl' : s'.stackList q = some list := by
        rw [← hs]
        exact hl
      rw [mem_taken_iff hl' hh', mem_taken_iff hl hh]
      refine and_congr_right fun hj => ?_
      rw [← hs]
      simp [setGrowth, hj]
    · refine taken_congr (by rw [← hs]; rfl) (by simp [home, howned, hne]) fun a' ha' => hmem a' ?_
      rintro rfl
      rcases home_cases ha' with ha' | ha' <;> cases h.exclusive _ _ _ ha' hlist
      exact hne rfl
  · refine hf.mono (by rw [← hs]; rfl) (fun _ _ => by rw [← hs]; rfl) fun t l hl' =>
      hmem _ fun he => ?_
    cases h.exclusive (.copy t) _ _ (by simp [owned, hl', he]) hlist

end Stacks

end Koerix
