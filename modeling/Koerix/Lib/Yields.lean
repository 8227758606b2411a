import Mathlib.Data.Option.Basic

/-! # Partial computations that return

A computation in the option monad returns if it is defined. `Yields r Q` says
that it returns and that the result meets `Q`; a computation is followed
statement by statement with the rule for `bind`.
-/

/-- The computation returns, with a result that meets `Q`. -/
def Yields {α : Type*} (r : Option α) (Q : α → Prop) : Prop := ∃ x, r = some x ∧ Q x

namespace Yields

variable {α β : Type} {r : Option α} {k : α → Option β} {P P' : α → Prop} {Q : β → Prop} {x : α}

theorem pure (h : P x) : Yields (some x) P := ⟨x, rfl, h⟩

theorem bind (h : Yields r P) (hk : ∀ x, P x → Yields (k x) Q) : Yields (r >>= k) Q := by
  obtain ⟨x, rfl, hx⟩ := h
  exact hk x hx

theorem bind_some (h : r = some x) (hk : Yields (k x) Q) : Yields (r >>= k) Q := by
  rw [h]
  exact hk

theorem mono (h : Yields r P) (hP : ∀ x, P x → P' x) : Yields r P' := by
  obtain ⟨x, hr, hx⟩ := h
  exact ⟨x, hr, hP x hx⟩

theorem of_eq_some (h : Yields r P) (hr : r = some x) : P x := by
  obtain ⟨y, rfl, hy⟩ := h
  cases hr
  exact hy

end Yields
