import Koerix.Lib.InDegree
import Koerix.Lib.Run
import Mathlib.Data.List.Count

/-! # Shared pointers

The handles of `lib::shared_ptr` next to what they are for: each handle owns an
object or nothing. The code keeps a counter in a control block. It copies null
handles through a null pointer, `clear()` leaves the pointer of a handle in place
while others own the object, and nothing deletes the object itself. Without these
three the counters are exact.
-/

namespace Koerix

open InDegree

/-- `shared_ptr` objects by their address, 8 bytes each. -/
abbrev HandleAddr := Fin (2 ^ 61)

/-- The live handles with their `m_data`, the control blocks, which are numbered in the order of
their construction, and what has been deleted so far. A control block manages the object of
the same number. -/
structure SharedPtrs where
  data : HandleAddr → Option (Option ℕ)
  made : ℕ
  refs : ℕ → UInt64
  deletedBlocks : List ℕ
  deletedObjects : List ℕ

namespace SharedPtrs

def init : SharedPtrs := ⟨fun _ => none, 0, fun _ => 0, [], []⟩

def setData (h : HandleAddr) (x : Option (Option ℕ)) (s : SharedPtrs) : SharedPtrs :=
  { s with data := Function.update s.data h x }

/-- `new shared_ptr_data<T>(ptr)`. -/
def newBlock (s : SharedPtrs) : ℕ × SharedPtrs :=
  (s.made, { s with made := s.made + 1, refs := Function.update s.refs s.made 1 })

/-- `m_data->addRef()`, with the value before; undefined for a deleted block. -/
def addRef (b : ℕ) (s : SharedPtrs) : Option (UInt64 × SharedPtrs) :=
  if b ∈ s.deletedBlocks then none
  else some (s.refs b, { s with refs := Function.update s.refs b (s.refs b + 1) })

/-- `m_data->release()`, with the value before; undefined for a deleted block. -/
def release (b : ℕ) (s : SharedPtrs) : Option (UInt64 × SharedPtrs) :=
  if b ∈ s.deletedBlocks then none
  else some (s.refs b, { s with refs := Function.update s.refs b (s.refs b - 1) })

/-- `delete m_data`: the control block has no destructor of its own, and the object stays. -/
def deleteBlock (b : ℕ) (s : SharedPtrs) : SharedPtrs :=
  { s with deletedBlocks := s.deletedBlocks ++ [b] }

/-- `clear()` on the handle at `h`. -/
def clear (h : HandleAddr) (s : SharedPtrs) : Option SharedPtrs := do
  match ← s.data h with
  | none => return s
  | some b =>
    let (before, s) ← s.release b
    if before = 1 then return (s.deleteBlock b).setData h (some none)
    else return s

/-- `m_data = self.m_data`, and `assert_verify(m_data->addRef() != 0)` through the pointer. -/
def share (h src : HandleAddr) (s : SharedPtrs) : Option SharedPtrs := do
  let b ← (← s.data src)
  let s := s.setData h (some (some b))
  let (before, s) ← s.addRef b
  if before = 0 then none else return s

/-- What can be done with the handle at an address. -/
inductive Op
  /-- `shared_ptr()` -/
  | default (h : HandleAddr)
  /-- `shared_ptr(T* ptr)` -/
  | ofPtr (h : HandleAddr)
  /-- `shared_ptr(const shared_ptr& self)` -/
  | copy (h src : HandleAddr)
  /-- `operator=(const shared_ptr& self)` -/
  | assign (h src : HandleAddr)
  /-- `clear()` -/
  | clear (h : HandleAddr)
  /-- `~shared_ptr()` -/
  | destroy (h : HandleAddr)
  deriving DecidableEq

def step (s : SharedPtrs) : Op → Option SharedPtrs
  | .default h => some (s.setData h (some none))
  | .ofPtr h =>
    let (b, s) := s.newBlock
    some (s.setData h (some (some b)))
  | .copy h src => s.share h src
  | .assign h src => do
    let s ← s.clear h
    s.share h src
  | .clear h => s.clear h
  | .destroy h => do
    let s ← s.clear h
    return s.setData h none

end SharedPtrs

/-- The object that each handle owns, as its operations are meant. -/
abbrev Owners := HandleAddr → Option ℕ

namespace Owners

/-- What an operation does to the ownership; `fresh` is the number of a new object. -/
def step (o : Owners) (fresh : ℕ) : SharedPtrs.Op → Owners
  | .default h => Function.update o h none
  | .ofPtr h => Function.update o h (some fresh)
  | .copy h src | .assign h src => Function.update o h (o src)
  | .clear h | .destroy h => Function.update o h none

end Owners

/-- The handles, and what they are meant to own. -/
structure Shared where
  ptrs : SharedPtrs
  owner : Owners

namespace Shared

open SharedPtrs

def init : Shared := ⟨SharedPtrs.init, fun _ => none⟩

def step (s : Shared) (op : Op) : Option Shared := do
  let ptrs ← s.ptrs.step op
  return ⟨ptrs, s.owner.step s.ptrs.made op⟩

/-- Handles are constructed where there is none, and used while they are live. -/
def Legal (s : Shared) : Op → Prop
  | .default h | .ofPtr h => s.ptrs.data h = none
  | .copy h src => s.ptrs.data h = none ∧ s.ptrs.data src ≠ none
  | .assign h src => s.ptrs.data h ≠ none ∧ s.ptrs.data src ≠ none
  | .clear h | .destroy h => s.ptrs.data h ≠ none

/-- The number of handles that own an object. -/
def owners (s : Shared) (b : ℕ) : ℕ := deg Finset.univ s.owner b

/-- The counters are exact, and a control block and its object are deleted once if nobody owns
the object any more, and else not at all. -/
structure Exact (s : Shared) : Prop where
  refs : ∀ b < s.ptrs.made, b ∉ s.ptrs.deletedBlocks → (s.ptrs.refs b).toNat = s.owners b
  blocks : ∀ b < s.ptrs.made, s.ptrs.deletedBlocks.count b = if s.owners b = 0 then 1 else 0
  objects : ∀ b < s.ptrs.made, s.ptrs.deletedObjects.count b = if s.owners b = 0 then 1 else 0

/-- The handle points to what it owns: it has not been cleared while others owned its object. -/
def Fresh (s : Shared) (h : HandleAddr) : Prop := s.ptrs.data h = some (s.owner h)

/-- The handle owns nothing, or somebody else owns its object as well. -/
def Spared (s : Shared) (h : HandleAddr) : Prop :=
  ∀ b, s.owner h = some b → ∃ k, k ≠ h ∧ s.owner k = some b

/-- Copies are made of handles that own something, handles that were cleared while others owned
their object are not used again, and the last owner of an object keeps it. -/
def Careful (s : Shared) : Op → Prop
  | .default h | .ofPtr h => s.ptrs.data h = none
  | .copy h src => s.ptrs.data h = none ∧ s.Fresh src ∧ s.owner src ≠ none
  | .assign h src => s.Fresh h ∧ s.Spared h ∧ s.Fresh src ∧ s.owner src ≠ none
  | .clear h | .destroy h => s.Fresh h ∧ s.Spared h

variable {s s' : Shared} {h k src : HandleAddr} {b : ℕ} {op : Op}

/-- What careful operations keep. -/
structure Inv (s : Shared) : Prop where
  counted : Counted s.owner s.ptrs.refs
  data : ∀ h b, s.owner h = some b → s.ptrs.data h = some (some b)
  below : ∀ h b, s.owner h = some b → b < s.ptrs.made
  owned : ∀ b < s.ptrs.made, ∃ h, s.owner h = some b
  deletedBlocks : s.ptrs.deletedBlocks = []
  deletedObjects : s.ptrs.deletedObjects = []

theorem inv_init : Inv init where
  counted b := by
    rw [deg_eq_zero_iff.mpr fun h _ => by simp [init]]
    rfl
  data h b hb := by simp [init] at hb
  below h b hb := by simp [init] at hb
  owned b hb := by simp [init, SharedPtrs.init] at hb
  deletedBlocks := rfl
  deletedObjects := rfl

theorem card_handleAddr : Fintype.card HandleAddr < 2 ^ 64 := by
  rw [Fintype.card_fin]
  decide

namespace Inv

theorem owner_of_dead (hinv : Inv s) (hd : s.ptrs.data h = none) : s.owner h = none := by
  cases ho : s.owner h with
  | none => rfl
  | some b => simp [hinv.data h b ho] at hd

theorem refs_ne_one (hinv : Inv s) (hh : s.owner h = some b) (hk : s.owner k = some b)
    (hne : k ≠ h) : s.ptrs.refs b ≠ 1 := by
  intro h1
  have hpos := (hinv.counted.detach hh).pos (k := k) (x := b)
    (by rwa [Function.update_of_ne hne])
  rw [Function.update_self, h1] at hpos
  cases hpos

/-- `clear()` by a handle that is not the last owner. -/
theorem clear (hinv : Inv s) (hf : s.Fresh h) (hsp : s.Spared h) :
    ∃ p, s.ptrs.clear h = some p ∧ p.data = s.ptrs.data ∧ p.made = s.ptrs.made ∧
      Inv ⟨p, Function.update s.owner h none⟩ := by
  have hlose : ∀ k b, Function.update s.owner h none k = some b → s.owner k = some b := by
    intro k b hk
    rcases eq_or_ne k h with rfl | hne
    · simp at hk
    · rwa [Function.update_of_ne hne] at hk
  cases ho : s.owner h with
  | none =>
    have hsame : Function.update s.owner h none = s.owner := by
      rw [← ho, Function.update_eq_self]
    refine ⟨s.ptrs, ?_, rfl, rfl, ?_⟩
    · rw [Fresh, ho] at hf
      simp [SharedPtrs.clear, hf]
    · rwa [hsame]
  | some b =>
    obtain ⟨k, hne, hk⟩ := hsp b ho
    rw [Fresh, ho] at hf
    refine ⟨{ s.ptrs with refs := Function.update s.ptrs.refs b (s.ptrs.refs b - 1) }, ?_, rfl, rfl,
      hinv.counted.detach ho, fun k c hk => hinv.data k c (hlose k c hk),
      fun k c hk => hinv.below k c (hlose k c hk), fun c hc => ?_, hinv.deletedBlocks,
      hinv.deletedObjects⟩
    · simp [SharedPtrs.clear, hf, SharedPtrs.release, hinv.deletedBlocks,
        hinv.refs_ne_one ho hk hne]
    · obtain ⟨l, hl⟩ := hinv.owned c hc
      rcases eq_or_ne l h with rfl | hlh
      · rw [hl] at ho
        cases ho
        exact ⟨k, (Function.update_of_ne hne _ _).trans hk⟩
      · exact ⟨l, (Function.update_of_ne hlh _ _).trans hl⟩

theorem share (hinv : Inv s) (hh : s.owner h = none) (hk : s.owner k = some b)
    (hsrc : s.ptrs.data src = some (some b)) :
    ∃ p, s.ptrs.share h src = some p ∧ Inv ⟨p, Function.update s.owner h (some b)⟩ := by
  have hne : s.ptrs.refs b ≠ 0 := hinv.counted.ne_zero hk
  refine ⟨{ s.ptrs.setData h (some (some b)) with
    refs := Function.update s.ptrs.refs b (s.ptrs.refs b + 1) }, ?_,
    hinv.counted.attach card_handleAddr hh, fun l c hl => ?_, fun l c hl => ?_, fun c hc => ?_,
    hinv.deletedBlocks, hinv.deletedObjects⟩
  · simp [SharedPtrs.share, hsrc, SharedPtrs.addRef, setData, hinv.deletedBlocks, hne]
  · dsimp only [setData] at hl ⊢
    rcases eq_or_ne l h with rfl | hlh
    · rw [Function.update_self] at hl ⊢
      rw [hl]
    · rw [Function.update_of_ne hlh] at hl ⊢
      exact hinv.data l c hl
  · dsimp only [setData] at hl ⊢
    rcases eq_or_ne l h with rfl | hlh
    · rw [Function.update_self] at hl
      cases hl
      exact hinv.below k b hk
    · rw [Function.update_of_ne hlh] at hl
      exact hinv.below l c hl
  · obtain ⟨l, hl⟩ := hinv.owned c hc
    refine ⟨l, ?_⟩
    dsimp only
    rw [Function.update_of_ne, hl]
    rintro rfl
    simp [hl] at hh

theorem step (hinv : Inv s) (hok : Careful s op) : ∃ s', s.step op = some s' ∧ Inv s' := by
  cases op with
  | default h =>
    have hh := hinv.owner_of_dead hok
    have hsame : Function.update s.owner h none = s.owner := by rw [← hh, Function.update_eq_self]
    refine ⟨_, rfl, ?_⟩
    change Inv ⟨s.ptrs.setData h (some none), Function.update s.owner h none⟩
    rw [hsame]
    refine ⟨hinv.counted, fun k b hk => ?_, hinv.below, hinv.owned, hinv.deletedBlocks,
      hinv.deletedObjects⟩
    dsimp only [setData] at hk ⊢
    rw [Function.update_of_ne, hinv.data k b hk]
    rintro rfl
    simp [hh] at hk
  | ofPtr h =>
    have hh := hinv.owner_of_dead hok
    have hzero : s.ptrs.refs s.ptrs.made = 0 := by
      apply UInt64.toNat_inj.mp
      rw [hinv.counted, deg_eq_zero_iff.mpr]
      · rfl
      · intro k _ hk
        exact absurd (hinv.below k _ hk) (lt_irrefl _)
    refine ⟨_, rfl, ?_⟩
    change Inv ⟨{ s.ptrs with
      made := s.ptrs.made + 1
      refs := Function.update s.ptrs.refs s.ptrs.made 1 }.setData
      h (some (some s.ptrs.made)), Function.update s.owner h (some s.ptrs.made)⟩
    have hone : (1 : UInt64) = s.ptrs.refs s.ptrs.made + 1 := by rw [hzero]; rfl
    refine ⟨hone ▸ hinv.counted.attach card_handleAddr hh, fun k b hk => ?_, fun k b hk => ?_,
      fun b hb => ?_, hinv.deletedBlocks, hinv.deletedObjects⟩
    · dsimp only [setData] at hk ⊢
      rcases eq_or_ne k h with rfl | hne
      · rw [Function.update_self] at hk ⊢
        rw [hk]
      · rw [Function.update_of_ne hne] at hk ⊢
        exact hinv.data k b hk
    · dsimp only [setData] at hk ⊢
      rcases eq_or_ne k h with rfl | hne
      · rw [Function.update_self] at hk
        cases hk
        exact Nat.lt_succ_self _
      · rw [Function.update_of_ne hne] at hk
        exact Nat.lt_succ_of_lt (hinv.below k b hk)
    · dsimp only [setData] at hb ⊢
      rcases Nat.lt_succ_iff_lt_or_eq.mp hb with hlt | rfl
      · obtain ⟨k, hk⟩ := hinv.owned b hlt
        refine ⟨k, ?_⟩
        rw [Function.update_of_ne, hk]
        rintro rfl
        simp [hh] at hk
      · exact ⟨h, Function.update_self _ _ _⟩
  | copy h src =>
    obtain ⟨hd, hf, ho⟩ := hok
    obtain ⟨b, hb⟩ := Option.ne_none_iff_exists'.mp ho
    obtain ⟨p, hp, hinv'⟩ := hinv.share (hinv.owner_of_dead hd) hb (hf.trans (congrArg some hb))
    refine ⟨_, by rw [Shared.step, SharedPtrs.step, hp]; rfl, ?_⟩
    change Inv ⟨p, Function.update s.owner h (s.owner src)⟩
    rwa [hb]
  | assign h src =>
    obtain ⟨hfh, hsp, hf, ho⟩ := hok
    obtain ⟨b, hb⟩ := Option.ne_none_iff_exists'.mp ho
    obtain ⟨p₁, hp₁, hdata, -, hinv₁⟩ := hinv.clear hfh hsp
    obtain ⟨k, hne, hk⟩ : ∃ k, k ≠ h ∧ s.owner k = some b := by
      rcases eq_or_ne src h with rfl | hne
      · exact hsp b hb
      · exact ⟨src, hne, hb⟩
    obtain ⟨p, hp, hinv'⟩ := hinv₁.share (h := h) (k := k) (b := b)
      (Function.update_self _ _ _) ((Function.update_of_ne hne _ _).trans hk)
      ((congrFun hdata src).trans (hf.trans (congrArg some hb)))
    refine ⟨⟨p, Function.update s.owner h (s.owner src)⟩, ?_, ?_⟩
    · simp only [Shared.step, SharedPtrs.step, hp₁, Option.bind_eq_bind, Option.bind_some, hp]
      rfl
    · dsimp only at hinv'
      rwa [Function.update_idem, ← hb] at hinv'
  | clear h =>
    obtain ⟨p, hp, -, -, hinv'⟩ := hinv.clear hok.1 hok.2
    exact ⟨_, by rw [Shared.step, SharedPtrs.step, hp]; rfl, hinv'⟩
  | destroy h =>
    obtain ⟨p, hp, -, -, hinv'⟩ := hinv.clear hok.1 hok.2
    refine ⟨⟨p.setData h none, Function.update s.owner h none⟩, ?_, hinv'.counted, fun k b hk => ?_,
      hinv'.below, hinv'.owned, hinv'.deletedBlocks, hinv'.deletedObjects⟩
    · simp only [Shared.step, SharedPtrs.step, hp, Option.bind_eq_bind, Option.bind_some]
      rfl
    · have hne : k ≠ h := by
        rintro rfl
        simp at hk
      dsimp only [setData]
      rw [Function.update_of_ne hne]
      exact hinv'.data k b hk

theorem exact (hinv : Inv s) : Exact s := by
  have hpos : ∀ b < s.ptrs.made, s.owners b ≠ 0 := by
    intro b hb hz
    obtain ⟨h, hh⟩ := hinv.owned b hb
    exact deg_eq_zero_iff.mp hz h (Finset.mem_univ h) hh
  refine ⟨fun b _ _ => hinv.counted b, fun b hb => ?_, fun b hb => ?_⟩
  · rw [if_neg (hpos b hb), hinv.deletedBlocks]
    rfl
  · rw [if_neg (hpos b hb), hinv.deletedObjects]
    rfl

end Inv

/-- In every run of careful operations the ownership is exact, and the next careful operation is
defined. -/
theorem exact_of_careful (s : Shared) (h : Run.Reachable step Careful init s) :
    s.Exact ∧ ∀ op, s.Careful op → ∃ s', s.step op = some s' := by
  have hinv : Inv s := by
    refine h.invariant inv_init ?_
    intro s op s' hinv hok hs
    obtain ⟨s₁, hs₁, hinv'⟩ := hinv.step hok
    rw [hs] at hs₁
    cases hs₁
    exact hinv'
  refine ⟨hinv.exact, fun op hok => ?_⟩
  obtain ⟨s', hs, -⟩ := hinv.step hok
  exact ⟨s', hs⟩

/-- A handle of a new object. -/
def newHandle : Shared := (init.step (.ofPtr 0)).get rfl

/-- A copy of it. -/
def twoHandles : Shared := (newHandle.step (.copy 1 0)).get (by decide +kernel)

/-- The first of them is destroyed. -/
def oneHandle : Shared := (twoHandles.step (.destroy 0)).get (by decide +kernel)

theorem reachable_oneHandle : Run.Reachable step Careful init oneHandle := by
  have hnew : Run.Reachable step Careful init newHandle :=
    .step (i := .ofPtr 0) .init rfl (Option.some_get _).symm
  have htwo : Run.Reachable step Careful init twoHandles :=
    .step (i := .copy 1 0) hnew ⟨rfl, rfl, by decide +kernel⟩ (Option.some_get _).symm
  have hspared : twoHandles.Spared 0 := by
    intro b hb
    refine ⟨1, by decide, ?_⟩
    rw [← hb]
    decide +kernel
  have hfresh : twoHandles.Fresh 0 := by
    change twoHandles.ptrs.data 0 = some (twoHandles.owner 0)
    decide +kernel
  exact .step (i := .destroy 0) htwo ⟨hfresh, hspared⟩ (Option.some_get _).symm

theorem exact_of_careful_oneHandle :
    oneHandle.ptrs.refs 0 = 1 ∧ oneHandle.owners 0 = 1 ∧ oneHandle.Exact := by
  have hexact := (exact_of_careful oneHandle reachable_oneHandle).1
  have hrefs : oneHandle.ptrs.refs 0 = 1 := by decide +kernel
  refine ⟨hrefs, ?_, hexact⟩
  rw [← hexact.refs 0 (by decide +kernel) (by decide +kernel), hrefs]
  rfl

/-- The copy of a null handle goes through a null pointer. -/
theorem not_exact_of_legal : ¬ ∀ s, Run.Reachable step Legal init s →
    s.Exact ∧ ∀ op, s.Legal op → ∃ s', s.step op = some s' := by
  intro hall
  have hreach : Run.Reachable step Legal init ((init.step (.default 0)).get rfl) :=
    .step (i := .default 0) .init rfl (Option.some_get _).symm
  obtain ⟨s', hs⟩ := (hall _ hreach).2 (.copy 1 0) ⟨by decide +kernel, by decide +kernel⟩
  have hnone : ((init.step (.default 0)).get rfl).step (.copy 1 0) = none := rfl
  rw [hnone] at hs
  cases hs

end Shared

end Koerix
