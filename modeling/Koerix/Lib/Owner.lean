import Mathlib.Logic.Function.Basic

/-! # Words that are owned at some control points

Tasks move between control points. A word is set exactly while one task is at a
control point of a given range. The rules say how the word and the control
point of one task change together.
-/

/-- The word is set while a task is in the range, and only one task is. -/
structure Owned {τ ρ : Type*} (range : ρ → Prop) (pc : τ → ρ) (word : Bool) : Prop where
  exists_of_set : word = true → ∃ t, range (pc t)
  set_of_range : ∀ t, range (pc t) → word = true
  unique : ∀ t u, range (pc t) → range (pc u) → t = u

namespace Owned

variable {τ ρ : Type*} [DecidableEq τ] {range : ρ → Prop} {pc : τ → ρ} {word : Bool} {t : τ} {p : ρ}

omit [DecidableEq τ] in
theorem not_range (h : Owned range pc false) (t : τ) : ¬ range (pc t) :=
  fun ht => Bool.noConfusion (h.set_of_range t ht)

theorem stay (h : Owned range pc word) (hp : range p ↔ range (pc t)) :
    Owned range (Function.update pc t p) word := by
  have hiff : ∀ u, range (Function.update pc t p u) ↔ range (pc u) := by
    intro u
    rcases eq_or_ne u t with rfl | hu
    · rw [Function.update_self, hp]
    · rw [Function.update_of_ne hu]
  constructor
  · intro hw
    obtain ⟨u, hu⟩ := h.exists_of_set hw
    exact ⟨u, (hiff u).mpr hu⟩
  · intro u hu
    exact h.set_of_range u ((hiff u).mp hu)
  · intro u v hu hv
    exact h.unique u v ((hiff u).mp hu) ((hiff v).mp hv)

theorem acquire (h : Owned range pc false) (hp : range p) :
    Owned range (Function.update pc t p) true := by
  have hiff : ∀ u, range (Function.update pc t p u) → u = t := by
    intro u hu
    by_contra hne
    rw [Function.update_of_ne hne] at hu
    exact h.not_range u hu
  constructor
  · intro _
    exact ⟨t, by rwa [Function.update_self]⟩
  · intro _ _
    rfl
  · intro u v hu hv
    rw [hiff u hu, hiff v hv]

theorem release (h : Owned range pc word) (ht : range (pc t)) (hp : ¬ range p) :
    Owned range (Function.update pc t p) false := by
  have hnone : ∀ u, ¬ range (Function.update pc t p u) := by
    intro u hu
    rcases eq_or_ne u t with rfl | hne
    · rw [Function.update_self] at hu
      exact hp hu
    · rw [Function.update_of_ne hne] at hu
      exact hne (h.unique u t hu ht)
  constructor
  · intro hw
    cases hw
  · intro u hu
    exact absurd hu (hnone u)
  · intro u v hu
    exact absurd hu (hnone u)

end Owned
