import Koerix.Lib.Run
import Koerix.PageMap.Basic

/-! # The counters against the references really held

An account pairs a page map with the number of references that holders have
to each frame. Its steps are the calls that holders may make: anyone may
allocate, only a holder may add a reference or give one back. The 8-bit
counters follow the true numbers exactly as long as no frame that already
has 255 holders is given one more.
-/

namespace Koerix

open Run

/-- A page map with the true number of outstanding references to each frame. -/
structure Account where
  pageMap : PageMap
  refs : ℕ → ℕ

namespace Account

inductive Call
  | alloc
  | addRef (ppn : ℕ)
  | free (ppn : ℕ)

def step (a : Account) : Call → Option Account
  | .alloc => a.pageMap.alloc.map fun (f, m) => ⟨m, Function.update a.refs f (a.refs f + 1)⟩
  | .addRef f =>
    if a.refs f = 0 then none
    else some ⟨a.pageMap.addRef f, Function.update a.refs f (a.refs f + 1)⟩
  | .free f =>
    if a.refs f = 0 then none
    else (a.pageMap.free f).map fun m => ⟨m, Function.update a.refs f (a.refs f - 1)⟩

/-- The references that the counters of a page map stand for. -/
def initial (m : PageMap) : Account :=
  ⟨m, fun f => if f < m.totalPages then (m.pagemap f).toNat else 0⟩

/-- Every counter equals the number of references, and frames outside the map have none. -/
def Exact (a : Account) : Prop :=
  (∀ f < a.pageMap.totalPages, (a.pageMap.pagemap f).toNat = a.refs f) ∧
    ∀ f, a.pageMap.totalPages ≤ f → a.refs f = 0

/-- The counters are exact, and `alloc` returns only frames that nobody refers to. -/
def Sound (a : Account) : Prop :=
  a.Exact ∧ ∀ f m, a.pageMap.alloc = some (f, m) → a.refs f = 0

/-- The call does not add a reference to a frame that already has 255. -/
def Fits (a : Account) : Call → Prop
  | .addRef f => a.refs f < 255
  | _ => True

variable {a a' : Account}

theorem exact_initial (m : PageMap) : (initial m).Exact :=
  ⟨fun _ hf => (if_pos hf).symm, fun _ hf => if_neg (Nat.not_lt.mpr hf)⟩

theorem Exact.sound (h : a.Exact) : a.Sound := by
  refine ⟨h, fun f m ha => ?_⟩
  obtain ⟨hf, hz, _⟩ := PageMap.alloc_eq_some ha
  rw [← h.1 f hf, hz]
  rfl

theorem Exact.lt_totalPages (h : a.Exact) {f : ℕ} (hf : a.refs f ≠ 0) :
    f < a.pageMap.totalPages := by
  by_contra hn
  exact hf (h.2 f (by omega))

theorem exact_alloc_step (h : a.Exact) (hs : a.step .alloc = some a') : a'.Exact := by
  simp only [step, Option.map_eq_some_iff, Prod.exists] at hs
  obtain ⟨f, m, ha, rfl⟩ := hs
  obtain ⟨hf, hz, ht, hp⟩ := PageMap.alloc_eq_some ha
  have hr : a.refs f = 0 := (h.1 f hf).symm.trans (by simp [hz])
  constructor
  · intro g hg
    rcases eq_or_ne g f with rfl | hne
    · simp [hp, hr]
    · simpa [hp, hne] using h.1 g (ht ▸ hg)
  · intro g hg
    have hge : a.pageMap.totalPages ≤ g := ht ▸ hg
    simpa [show g ≠ f by omega] using h.2 g hge

theorem exact_addRef_step_iff (h : a.Exact) {f : ℕ} (hs : a.step (.addRef f) = some a') :
    a'.Exact ↔ a.refs f < 255 := by
  simp only [step] at hs
  split_ifs at hs with h₀
  cases hs
  have hf := h.lt_totalPages h₀
  have hc := h.1 f hf
  constructor
  · intro h'
    have hlt := ((a.pageMap.addRef f).pagemap f).toNat_lt
    have heq := h'.1 f (by simpa using hf)
    simp only [Function.update_self] at heq
    omega
  · intro hlt
    constructor
    · intro g hg
      rcases eq_or_ne g f with rfl | hne
      · simp only [PageMap.addRef_pagemap hf, Function.update_self, UInt8.toNat_add, hc]
        exact Nat.mod_eq_of_lt (by simpa using by omega)
      · simpa [PageMap.addRef_pagemap hf, hne] using h.1 g (by simpa using hg)
    · intro g hg
      have hge : a.pageMap.totalPages ≤ g := by simpa using hg
      simpa [show g ≠ f by omega] using h.2 g hge

theorem exact_free_step (h : a.Exact) {f : ℕ} (hs : a.step (.free f) = some a') : a'.Exact := by
  simp only [step] at hs
  split_ifs at hs with h₀
  simp only [Option.map_eq_some_iff] at hs
  obtain ⟨m, hm, rfl⟩ := hs
  have hf := h.lt_totalPages h₀
  obtain ⟨hz, ht, hp⟩ := PageMap.free_eq_some hm hf
  constructor
  · intro g hg
    rcases eq_or_ne g f with rfl | hne
    · have hle : (1 : UInt8) ≤ a.pageMap.pagemap g := by
        rw [UInt8.le_iff_toNat_le, h.1 g hf]
        simpa [Nat.one_le_iff_ne_zero] using h₀
      simp [hp, UInt8.toNat_sub_of_le _ _ hle, h.1 g hf]
    · simpa [hp, hne] using h.1 g (ht ▸ hg)
  · intro g hg
    have hge : a.pageMap.totalPages ≤ g := ht ▸ hg
    simpa [show g ≠ f by omega] using h.2 g hge

theorem sound_step_iff (h : a.Sound) {c : Call} (hs : a.step c = some a') :
    a'.Sound ↔ a.Fits c := by
  cases c with
  | alloc => exact ⟨fun _ => trivial, fun _ => (exact_alloc_step h.1 hs).sound⟩
  | addRef f =>
    exact ⟨fun h' => (exact_addRef_step_iff h.1 hs).mp h'.1,
      fun hf => ((exact_addRef_step_iff h.1 hs).mpr hf).sound⟩
  | free f => exact ⟨fun _ => trivial, fun _ => (exact_free_step h.1 hs).sound⟩

theorem fits_of_step_eq_none {c : Call} (hs : a.step c = none) : a.Fits c := by
  cases c with
  | alloc => trivial
  | free f => trivial
  | addRef f =>
    simp only [step] at hs
    split_ifs at hs with h₀
    simp [Fits, h₀]

/-- Along any run of holders' calls the counters stay exact, and so `alloc` only
returns unreferenced frames, exactly when no call gives a frame its 256th holder. -/
theorem sound_run_iff_fits (m : PageMap) (calls : List Call) :
    (∀ a ∈ trace step (initial m) calls, a.Sound) ↔
      Guarded step Fits (initial m) calls :=
  forall_mem_trace_iff_guarded (fun _ _ _ h hs => sound_step_iff h hs)
    (fun _ _ _ hs => fits_of_step_eq_none hs) (exact_initial m).sound calls

/-- Allocate the only frame of a one-frame machine, then reference it 255 times more. -/
def overflowCalls : List Call := .alloc :: List.replicate 255 (.addRef 0)

/-- After 256 references the counter is zero again and the frame in use is handed out anew. -/
theorem not_sound_overflowCalls :
    ¬ ∀ a ∈ trace step (initial ⟨⟨1, 1, 1, 0, fun _ => 0⟩, by decide⟩) overflowCalls, a.Sound := by
  intro h
  have hlast : (overflowCalls.foldlM step (initial ⟨⟨1, 1, 1, 0, fun _ => 0⟩, by decide⟩)).map
      (fun a => (a.refs 0, a.pageMap.alloc.map Prod.fst)) = some (256, some 0) := by
    decide +kernel
  simp only [Option.map_eq_some_iff, Prod.mk.injEq] at hlast
  obtain ⟨a, ha, hrefs, ⟨f, m⟩, halloc, rfl⟩ := hlast
  have hzero := (h a (mem_trace_of_foldlM ha)).2 _ m halloc
  simp [hrefs] at hzero

end Account

end Koerix
