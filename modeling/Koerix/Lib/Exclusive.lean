import Mathlib.Logic.Function.Basic

/-! # Things with one owner

Owners have at most one thing each. The rules say how a thing is taken, dropped
and handed over so that no two owners have the same.
-/

/-- No two owners have the same thing. -/
def Exclusive {κ α : Type*} (has : κ → Option α) : Prop :=
  ∀ o o' a, has o = some a → has o' = some a → o = o'

namespace Exclusive

variable {κ α : Type*} [DecidableEq κ] {has : κ → Option α} {o o' : κ} {a : α}

theorem take (h : Exclusive has) (ha : ∀ o', o' ≠ o → has o' ≠ some a) :
    Exclusive (Function.update has o (some a)) := by
  intro x y b hx hy
  rcases eq_or_ne x o with hxo | hxo <;> rcases eq_or_ne y o with hyo | hyo
  · rw [hxo, hyo]
  · rw [hxo, Function.update_self, Option.some.injEq] at hx
    rw [Function.update_of_ne hyo, ← hx] at hy
    exact absurd hy (ha y hyo)
  · rw [hyo, Function.update_self, Option.some.injEq] at hy
    rw [Function.update_of_ne hxo, ← hy] at hx
    exact absurd hx (ha x hxo)
  · rw [Function.update_of_ne hxo] at hx
    rw [Function.update_of_ne hyo] at hy
    exact h x y b hx hy

theorem drop (h : Exclusive has) (o : κ) : Exclusive (Function.update has o none) := by
  intro x y b hx hy
  have hxo : x ≠ o := by
    rintro rfl
    simp at hx
  have hyo : y ≠ o := by
    rintro rfl
    simp at hy
  rw [Function.update_of_ne hxo] at hx
  rw [Function.update_of_ne hyo] at hy
  exact h x y b hx hy

theorem handOver (h : Exclusive has) (hne : o' ≠ o) (ha : has o = some a) :
    Exclusive (Function.update (Function.update has o none) o' (some a)) := by
  refine (h.drop o).take fun x hx hxa => ?_
  rcases eq_or_ne x o with rfl | hxo
  · simp at hxa
  · rw [Function.update_of_ne hxo] at hxa
    exact hxo (h x o a hxa ha)

end Exclusive
