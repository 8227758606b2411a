import Koerix.AddrSpace.Destroy
import Koerix.Spaces.Basic

/-! # Destroying one of several address spaces

`clone` counts the new reference to the topmost common table only, while the
destructor gives back a reference for every entry below it. After a fork the
destructor of either process therefore frees frames that the other still uses.
Runs in which every destroyed address space is severable keep all counters
exact.
-/

namespace Koerix

open GenericPagingTable AddrSpace

namespace Spaces

/-- All calls of the kernel, whatever the destroyed address space shares with others. -/
def Lifecycle (vm₀ : Vm) (s : Spaces) : Call → Prop
  | .destroy _ => True
  | c => Lawful vm₀ s c

/-- The destructor only runs on severable address spaces. -/
def Orderly (vm₀ : Vm) (s : Spaces) : Call → Prop
  | .destroy a => ∀ r ∈ s.live[a]?, Severable s.vm 3 r
  | c => Lawful vm₀ s c

instance (vm₀ : Vm) (s : Spaces) : DecidablePred (Orderly vm₀ s)
  | .destroy a => inferInstanceAs (Decidable (∀ r ∈ s.live[a]?, Severable s.vm 3 r))
  | .create => inferInstanceAs (Decidable (Lawful vm₀ s .create))
  | .clone a => inferInstanceAs (Decidable (Lawful vm₀ s (.clone a)))
  | .map a virt content flags =>
    inferInstanceAs (Decidable (Lawful vm₀ s (.map a virt content flags)))
  | .mapDevice a virt phys flags =>
    inferInstanceAs (Decidable (Lawful vm₀ s (.mapDevice a virt phys flags)))
  | .triggerCow a virt => inferInstanceAs (Decidable (Lawful vm₀ s (.triggerCow a virt)))

/-- Every frame that the lower half of a live address space reaches has a nonzero counter. -/
def Intact (s : Spaces) : Prop :=
  ∀ r ∈ s.live, ∀ virt < userPages, ∀ d ≤ 4, ∀ f, frameAt s.vm r virt d = some f →
    f < s.vm.pageMap.totalPages → s.vm.pageMap.pagemap f ≠ 0

/-- The destructor finishes without freeing a free frame, and the rest stays intact. -/
def DestroySafe (s : Spaces) (a : ℕ) : Prop := ∃ s', s.step (.destroy a) = some s' ∧ s'.Intact

variable {vm₀ : Vm} {s s' : Spaces} {base : ℕ → ℕ} {pos : Positions} {a r : ℕ}

theorem LawfulInv.intact (h : LawfulInv vm₀ s base pos) : s.Intact :=
  fun _ hr _ hv _ hd _ hf hlt => h.settled.counter_ne_zero_of_frameAt hr hv hd hf hlt

theorem LawfulInv.destroy (h : LawfulInv vm₀ s base pos) (ha : s.live[a]? = some r)
    (hsev : Severable s.vm 3 r) :
    ∃ s' pos', s.step (.destroy a) = some s' ∧ LawfulInv vm₀ s' base pos' := by
  obtain ⟨hlt, hr⟩ := List.getElem?_eq_some_iff.mp ha
  obtain ⟨vm', pos', hd, ht, hset⟩ := h.settled.destroy (List.mem_of_getElem? ha) hsev
  have hlive : s.live.erase r = s.live.eraseIdx a := by
    rw [← hr]
    exact h.settled.nodup.erase_getElem a hlt
  refine ⟨⟨vm', s.live.eraseIdx a⟩, pos', ?_, hlive ▸ hset, h.keeps, ht.trans h.total⟩
  simp [Spaces.step, ha, hd]

theorem LawfulInv.orderly_step {c : Call} (h : LawfulInv vm₀ s base pos) (hok : Orderly vm₀ s c)
    (hs : s.step c = some s') : ∃ base' pos', LawfulInv vm₀ s' base' pos' := by
  cases c with
  | destroy a =>
    obtain ⟨r, vm, ha, hd, -⟩ := step_destroy hs
    obtain ⟨s'', pos', hs'', hinv⟩ := h.destroy ha (hok r ha)
    rw [hs] at hs''
    cases hs''
    exact ⟨base, pos', hinv⟩
  | _ =>
    refine h.step ?_ hs
    exact hok

theorem LawfulInv.orderly (h : Run.Reachable Spaces.step (Orderly vm₀) (Spaces.initial vm₀) s) :
    ∃ base pos, LawfulInv vm₀ s base pos := by
  refine h.invariant (P := fun s => ∃ base pos, LawfulInv vm₀ s base pos)
    ⟨_, _, .initial vm₀⟩ ?_
  rintro s c s' ⟨base, pos, hinv⟩ hok hs
  exact hinv.orderly_step hok hs

/-- In every run whose destructors find severable address spaces, the state stays intact and
the next such destructor is safe. -/
theorem destroy_safe_of_orderly (vm : Vm) (s : Spaces)
    (h : Run.Reachable step (Orderly vm) (initial vm) s) :
    s.Intact ∧ ∀ a < s.live.length, Orderly vm s (.destroy a) → s.DestroySafe a := by
  obtain ⟨base, pos, hinv⟩ := LawfulInv.orderly h
  refine ⟨hinv.intact, fun a ha hok => ?_⟩
  obtain ⟨r, hr⟩ : ∃ r, s.live[a]? = some r := ⟨_, List.getElem?_eq_getElem ha⟩
  obtain ⟨s', pos', hs', hinv'⟩ := hinv.destroy hr (hok r hr)
  exact ⟨s', hs', hinv'.intact⟩

/-- Two address spaces with a page each, one of which goes away. -/
def twoCalls : List Call :=
  [.create, .map 0 0 (fun _ => 0) ⟨true, true, false, false, false⟩,
    .create, .map 1 0 (fun _ => 0) ⟨true, true, false, false, false⟩]

def afterTwo : Spaces := (twoCalls.foldlM step (initial (blank 16))).get (by decide +kernel)

theorem destroy_safe_of_orderly_afterTwo :
    afterTwo.live.length = 2 ∧ afterTwo.DestroySafe 0 := by
  have hguard : Run.Guarded step (Orderly (blank 16)) (initial (blank 16)) twoCalls := by
    decide +kernel
  have hlen : afterTwo.live.length = 2 := by decide +kernel
  exact ⟨hlen, (destroy_safe_of_orderly (blank 16) afterTwo
    (hguard.reachable (Option.some_get _).symm)).2 0 (by omega) (by decide +kernel)⟩

/-- One of two processes exits right after the fork. -/
def afterExit : Spaces := (afterFork.step (.destroy 0)).get (by decide +kernel)

/-- The exit of a process right after a fork frees the page of the other. -/
theorem not_destroy_safe : ¬ ∀ (vm : Vm) (s : Spaces),
    Run.Reachable step (Lifecycle vm) (initial vm) s → ∀ a < s.live.length, s.DestroySafe a := by
  intro h
  have hreach : Run.Reachable step (Lifecycle (blank 16)) (initial (blank 16)) afterFork := by
    refine reachable_afterFork.mono fun s c hc => ?_
    cases c <;> first | exact trivial | exact hc
  obtain ⟨s', hs', hintact⟩ := h (blank 16) afterFork hreach 0 (by decide +kernel)
  obtain rfl : afterExit = s' :=
    Option.some.inj ((Option.some_get _).trans hs')
  have hlive : afterExit.live = [5] := by decide +kernel
  have hframe : frameAt afterExit.vm 5 0 4 = some 1 := by decide +kernel
  refine hintact 5 (by rw [hlive]; decide) 0 (by decide) 4 le_rfl 1 hframe (by decide +kernel) ?_
  decide +kernel

end Spaces

end Koerix
