import Mathlib.Data.List.Basic
import Mathlib.Data.Nat.ModEq

/-! # Circular buffers

A buffer of `n` cells is read from an index on that wraps around at the end.
Adding an element behind a window that does not fill the buffer extends the
window; behind a full window it replaces the first element.
-/

namespace Ring

variable {β : Type*} {n i j start len : ℕ} {buf : ℕ → β} {b : β}

/-- The index after `i`. -/
def next (n i : ℕ) : ℕ := if i + 1 = n then 0 else i + 1

theorem next_lt (h : i < n) : next n i < n := by
  unfold next
  split_ifs <;> omega

/-- The index `k` cells after `i`. -/
def skip (n i k : ℕ) : ℕ := (i + k) % n

theorem skip_next (i k : ℕ) : skip n (next n i) k = skip n i (k + 1) := by
  unfold skip next
  split_ifs with he
  · rw [show i + (k + 1) = n + k by omega, Nat.zero_add, Nat.add_mod_left]
  · rw [show i + (k + 1) = i + 1 + k by omega]

theorem skip_zero (h : i < n) : skip n i 0 = i := Nat.mod_eq_of_lt h

theorem next_skip (h : i < n) (k : ℕ) : next n (skip n i k) = skip n i (k + 1) := by
  have hlt : skip n i k < n := Nat.mod_lt _ (by omega)
  rw [← skip_zero (next_lt hlt), skip_next, skip, skip, skip, Nat.mod_add_mod, Nat.add_assoc]

theorem skip_full : skip n i n = i % n := by rw [skip, Nat.add_mod_right]

theorem skip_ne {k : ℕ} (hk : k < len) (hlen : len < n) :
    skip n i k ≠ skip n i len := by
  intro he
  have hmod : k % n = len % n := Nat.ModEq.add_left_cancel' i he
  rw [Nat.mod_eq_of_lt (by omega), Nat.mod_eq_of_lt hlen] at hmod
  omega

/-- The `len` elements from `start` on. -/
def window (n : ℕ) (buf : ℕ → β) : ℕ → ℕ → List β
  | _, 0 => []
  | start, len + 1 => buf start :: window n buf (next n start) len

@[simp] theorem length_window : (window n buf start len).length = len := by
  induction len generalizing start with
  | zero => rfl
  | succ len ih => simp [window, ih]

theorem window_concat (h : start < n) :
    window n buf start (len + 1) = window n buf start len ++ [buf (skip n start len)] := by
  induction len generalizing start with
  | zero => simp [window, skip_zero h]
  | succ len ih => rw [window, ih (next_lt h), skip_next, window, List.cons_append]

theorem window_update (h : start < n) (hj : ∀ k < len, skip n start k ≠ j) :
    window n (Function.update buf j b) start len = window n buf start len := by
  induction len generalizing start with
  | zero => rfl
  | succ len ih =>
    have h₀ := hj 0 (Nat.succ_pos len)
    rw [skip_zero h] at h₀
    rw [window, window, Function.update_of_ne h₀, ih (next_lt h)]
    intro k hk
    rw [skip_next]
    exact hj (k + 1) (by omega)

theorem window_push (h : start < n) (hlen : len < n) :
    window n (Function.update buf (skip n start len) b) start (len + 1) =
      window n buf start len ++ [b] := by
  rw [window_concat h, Function.update_self, window_update h fun k hk => skip_ne hk hlen]

theorem window_push_full (h : start < n) :
    window n (Function.update buf start b) (next n start) n =
      (window n buf start n).tail ++ [b] := by
  obtain ⟨m, rfl⟩ : ∃ m, n = m + 1 := ⟨n - 1, by omega⟩
  have hlast : skip (m + 1) (next (m + 1) start) m = start := by
    rw [skip_next, skip_full, Nat.mod_eq_of_lt h]
  rw [window_concat (next_lt h), hlast, Function.update_self, window, List.tail_cons,
    window_update (next_lt h)]
  intro k hk he
  have hne : skip (m + 1) start 0 ≠ skip (m + 1) start (k + 1) :=
    skip_ne (Nat.succ_pos k) (by omega)
  rw [skip_next] at he
  exact hne ((skip_zero h).trans he.symm)

end Ring
