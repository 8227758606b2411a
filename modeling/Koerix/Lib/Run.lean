import Mathlib.Data.List.Basic

/-! # Runs of a partial step function

A system is given by a partial step function on states and inputs; an
undefined step is a run that stops there. The rules below carry an invariant,
a guard on the steps, or a forward simulation from one step to whole runs.
-/

namespace Run

variable {σ τ ι ο : Type*}

/-- The states reached from `s₀` by steps whose input meets the guard `ok`. -/
inductive Reachable (step : σ → ι → Option σ) (ok : σ → ι → Prop) (s₀ : σ) : σ → Prop
  | init : Reachable step ok s₀ s₀
  | step {s s' : σ} {i : ι} : Reachable step ok s₀ s → ok s i → step s i = some s' →
      Reachable step ok s₀ s'

theorem Reachable.invariant {step : σ → ι → Option σ} {ok : σ → ι → Prop} {s₀ s : σ}
    {P : σ → Prop} (h : Reachable step ok s₀ s) (h₀ : P s₀)
    (hstep : ∀ s i s', P s → ok s i → step s i = some s' → P s') : P s := by
  induction h with
  | init => exact h₀
  | step _ hok hs ih => exact hstep _ _ _ ih hok hs

theorem Reachable.mono {step : σ → ι → Option σ} {ok ok' : σ → ι → Prop} {s₀ s : σ}
    (h : Reachable step ok s₀ s) (hok : ∀ s i, ok s i → ok' s i) :
    Reachable step ok' s₀ s := by
  induction h with
  | init => exact .init
  | step _ ho hs ih => exact .step ih (hok _ _ ho) hs

/-- The states a run passes through, in order, up to the first undefined step. -/
@[simp] def trace (step : σ → ι → Option σ) : σ → List ι → List σ
  | s, [] => [s]
  | s, i :: is => s :: (step s i).elim [] fun s' => trace step s' is

/-- Every step that the run takes meets the guard. -/
def Guarded (step : σ → ι → Option σ) (ok : σ → ι → Prop) : σ → List ι → Prop
  | _, [] => True
  | s, i :: is => ok s i ∧ ∀ s', step s i = some s' → Guarded step ok s' is

instance decidableGuarded {step : σ → ι → Option σ} {ok : σ → ι → Prop}
    [∀ s i, Decidable (ok s i)] : ∀ s is, Decidable (Guarded step ok s is)
  | _, [] => isTrue trivial
  | s, i :: is =>
    match h : step s i with
    | none => decidable_of_iff (ok s i) (by simp [Guarded, h])
    | some s' =>
      have : Decidable (Guarded step ok s' is) := decidableGuarded s' is
      decidable_of_iff (ok s i ∧ Guarded step ok s' is) (by simp [Guarded, h])

theorem Reachable.head {step : σ → ι → Option σ} {ok : σ → ι → Prop} {s₀ s₁ s : σ} {i : ι}
    (h : Reachable step ok s₁ s) (hok : ok s₀ i) (hs : step s₀ i = some s₁) :
    Reachable step ok s₀ s := by
  induction h with
  | init => exact .step .init hok hs
  | step _ ho hst ih => exact .step ih ho hst

theorem Guarded.reachable {step : σ → ι → Option σ} {ok : σ → ι → Prop} {s s' : σ} {is : List ι}
    (h : Guarded step ok s is) (hs : is.foldlM step s = some s') : Reachable step ok s s' := by
  induction is generalizing s with
  | nil =>
    simp only [List.foldlM_nil, Option.pure_def, Option.some.injEq] at hs
    exact hs ▸ .init
  | cons i is ih =>
    simp only [List.foldlM_cons, Option.bind_eq_bind, Option.bind_eq_some_iff] at hs
    obtain ⟨t, ht, hs⟩ := hs
    exact (ih (h.2 t ht) hs).head h.1 ht

theorem guarded_true (step : σ → ι → Option σ) (s : σ) (is : List ι) :
    Guarded step (fun _ _ => True) s is := by
  induction is generalizing s with
  | nil => trivial
  | cons i is ih => exact ⟨trivial, fun s' _ => ih s'⟩

theorem reachable_of_foldlM {step : σ → ι → Option σ} {s s' : σ} {is : List ι}
    (hs : is.foldlM step s = some s') : Reachable step (fun _ _ => True) s s' :=
  (guarded_true step s is).reachable hs

theorem foldlM_invariant {step : σ → ι → Option σ} {P : σ → Prop} {s s' : σ} {is : List ι}
    (hs : is.foldlM step s = some s') (h : P s)
    (hstep : ∀ s, ∀ i ∈ is, ∀ s', P s → step s i = some s' → P s') : P s' := by
  induction is generalizing s with
  | nil =>
    simp only [List.foldlM_nil, Option.pure_def, Option.some.injEq] at hs
    exact hs ▸ h
  | cons i is ih =>
    simp only [List.foldlM_cons, Option.bind_eq_bind, Option.bind_eq_some_iff] at hs
    obtain ⟨t, ht, hs⟩ := hs
    exact ih hs (hstep s i List.mem_cons_self t h ht)
      fun s j hj => hstep s j (List.mem_cons_of_mem i hj)

theorem exists_foldlM {step : σ → ι → Option σ} {P : σ → Prop}
    (hstep : ∀ s i, P s → ∃ s', step s i = some s' ∧ P s') {s : σ} (h : P s) (is : List ι) :
    ∃ s', is.foldlM step s = some s' ∧ P s' := by
  induction is generalizing s with
  | nil => exact ⟨s, rfl, h⟩
  | cons i is ih =>
    obtain ⟨s₁, hs₁, h₁⟩ := hstep s i h
    obtain ⟨s', hs', h'⟩ := ih h₁
    exact ⟨s', by rw [List.foldlM_cons, hs₁]; exact hs', h'⟩

theorem foldlM_simulation {step : σ → ι → Option σ} {step' : τ → ι → Option τ} {R : σ → τ → Prop}
    (hstep : ∀ s t i t', R s t → step' t i = some t' → ∃ s', step s i = some s' ∧ R s' t')
    {s : σ} {t t' : τ} {is : List ι} (h : R s t) (hrun : is.foldlM step' t = some t') :
    ∃ s', is.foldlM step s = some s' ∧ R s' t' := by
  induction is generalizing s t with
  | nil =>
    simp only [List.foldlM_nil, Option.pure_def, Option.some.injEq] at hrun
    exact ⟨s, rfl, hrun ▸ h⟩
  | cons i is ih =>
    simp only [List.foldlM_cons, Option.bind_eq_bind, Option.bind_eq_some_iff] at hrun
    obtain ⟨t₁, ht, hrun⟩ := hrun
    obtain ⟨s₁, hs, hR⟩ := hstep s t i t₁ h ht
    obtain ⟨s', hs', hR'⟩ := ih hR hrun
    exact ⟨s', by rw [List.foldlM_cons, hs]; exact hs', hR'⟩

/-- Run a list of inputs as long as they meet the guard. -/
def guardedRun (step : σ → ι → Option σ) (ok : σ → ι → Prop) [∀ s i, Decidable (ok s i)] (s : σ)
    (is : List ι) : Option σ :=
  is.foldlM (fun s i => if ok s i then step s i else none) s

theorem reachable_of_guardedRun {step : σ → ι → Option σ} {ok : σ → ι → Prop}
    [∀ s i, Decidable (ok s i)] {s s' : σ} {is : List ι} (h : guardedRun step ok s is = some s') :
    Reachable step ok s s' := by
  induction is generalizing s with
  | nil =>
    simp only [guardedRun, List.foldlM_nil, Option.pure_def, Option.some.injEq] at h
    exact h ▸ .init
  | cons i is ih =>
    simp only [guardedRun, List.foldlM_cons, Option.bind_eq_bind, Option.bind_eq_some_iff] at h
    obtain ⟨t, ht, h⟩ := h
    split_ifs at ht with hok
    exact (ih h).head hok ht

theorem mem_trace_self (step : σ → ι → Option σ) (s : σ) (is : List ι) :
    s ∈ trace step s is := by
  cases is <;> simp [trace]

theorem mem_trace_of_foldlM {step : σ → ι → Option σ} {s s' : σ} {is : List ι}
    (h : is.foldlM step s = some s') : s' ∈ trace step s is := by
  induction is generalizing s with
  | nil => simp_all [trace]
  | cons i is ih =>
    simp only [List.foldlM_cons, Option.bind_eq_bind, Option.bind_eq_some_iff] at h
    obtain ⟨t, ht, h⟩ := h
    simp [trace, ht, ih h]

theorem forall_mem_trace_cons {step : σ → ι → Option σ} {P : σ → Prop} {s : σ} {i : ι}
    {is : List ι} : (∀ t ∈ trace step s (i :: is), P t) ↔
      P s ∧ ∀ s', step s i = some s' → ∀ t ∈ trace step s' is, P t := by
  cases h : step s i <;> simp [trace, h]

/-- If a state satisfies `P` after a step exactly when the step met the guard,
then `P` holds along a run exactly when the run is guarded. -/
theorem forall_mem_trace_iff_guarded {step : σ → ι → Option σ} {ok : σ → ι → Prop}
    {P : σ → Prop} (hstep : ∀ s i s', P s → step s i = some s' → (P s' ↔ ok s i))
    (hstuck : ∀ s i, P s → step s i = none → ok s i) {s : σ} (h : P s) (is : List ι) :
    (∀ t ∈ trace step s is, P t) ↔ Guarded step ok s is := by
  induction is generalizing s with
  | nil => simp [trace, Guarded, h]
  | cons i is ih =>
    rw [forall_mem_trace_cons, Guarded]
    cases hs : step s i with
    | none => simp [h, hstuck s i h hs]
    | some s' =>
      simp only [Option.some.injEq, forall_eq', h, true_and]
      constructor
      · intro ht
        have hs' : P s' := ht s' (mem_trace_self step s' is)
        exact ⟨(hstep s i s' h hs).mp hs', (ih hs').mp ht⟩
      · rintro ⟨hok, hg⟩
        exact (ih ((hstep s i s' h hs).mpr hok)).mpr hg

theorem guarded_congr {step : σ → ι → Option σ} {ok ok' : σ → ι → Prop} {P : σ → Prop}
    (hok : ∀ s i, P s → (ok s i ↔ ok' s i))
    (hstep : ∀ s i s', P s → ok' s i → step s i = some s' → P s') {s : σ} (h : P s)
    (is : List ι) : Guarded step ok s is ↔ Guarded step ok' s is := by
  induction is generalizing s with
  | nil => rfl
  | cons i is ih =>
    rw [Guarded, Guarded, hok s i h]
    refine and_congr_right fun hi => ?_
    exact ⟨fun hg s' hs => (ih (hstep s i s' h hi hs)).mp (hg s' hs),
      fun hg s' hs => (ih (hstep s i s' h hi hs)).mpr (hg s' hs)⟩

/-- Run a list of inputs, collecting the outputs. -/
def outputs (step : σ → ι → Option (σ × ο)) : σ → List ι → Option (σ × List ο)
  | s, [] => some (s, [])
  | s, i :: is => do
    let (s', o) ← step s i
    let (t, os) ← outputs step s' is
    return (t, o :: os)

theorem outputs_cons_eq_some {step : σ → ι → Option (σ × ο)} {s t : σ} {i : ι} {is : List ι}
    {os : List ο} (h : outputs step s (i :: is) = some (t, os)) :
    ∃ s' o os', step s i = some (s', o) ∧ outputs step s' is = some (t, os') ∧ os = o :: os' := by
  simp only [outputs, Option.bind_eq_bind, Option.bind_eq_some_iff, Option.pure_def,
    Option.some.injEq, Prod.exists, Prod.mk.injEq] at h
  obtain ⟨s', o, hs, t', os', hr, rfl, rfl⟩ := h
  exact ⟨s', o, os', hs, hr, rfl⟩

theorem outputs_simulation {step : σ → ι → Option (σ × ο)} {step' : τ → ι → Option (τ × ο)}
    {R : σ → τ → Prop} {ok : σ → ι → Prop}
    (hstep : ∀ s t i s' o, R s t → ok s i → step s i = some (s', o) →
      ∃ t', step' t i = some (t', o) ∧ R s' t')
    {s s' : σ} {t : τ} {is : List ι} {os : List ο} (h : R s t)
    (hok : Guarded (fun s i => (step s i).map Prod.fst) ok s is)
    (hrun : outputs step s is = some (s', os)) :
    ∃ t', outputs step' t is = some (t', os) ∧ R s' t' := by
  induction is generalizing s t os with
  | nil =>
    simp only [outputs, Option.some.injEq, Prod.mk.injEq] at hrun
    obtain ⟨rfl, rfl⟩ := hrun
    exact ⟨t, rfl, h⟩
  | cons i is ih =>
    obtain ⟨s₁, o, os', hs, hr, rfl⟩ := outputs_cons_eq_some hrun
    obtain ⟨t₁, ht, hR⟩ := hstep _ _ _ _ _ h hok.1 hs
    obtain ⟨t', htr, hR'⟩ := ih hR (hok.2 s₁ (by simp [hs])) hr
    exact ⟨t', by simp [outputs, ht, htr], hR'⟩

end Run
