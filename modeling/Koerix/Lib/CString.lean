import Mathlib.Data.List.Basic

/-! # C strings

The characters of a string that ends at its first NUL, and the relation between two strings
that a comparison finds when it stops at the end of the shorter one.
-/

/-- The characters before the NUL. -/
@[ext]
structure CString where
  chars : List UInt8
  nul_not_mem : 0 ∉ chars
  deriving DecidableEq

/-- One of two strings begins with the other. -/
def Comparable {α : Type*} (s t : List α) : Prop := s <+: t ∨ t <+: s

namespace Comparable

variable {α : Type*} {a b : α} {s t : List α}

instance [DecidableEq α] (s t : List α) : Decidable (Comparable s t) :=
  inferInstanceAs (Decidable (_ ∨ _))

theorem refl (s : List α) : Comparable s s := Or.inl (List.prefix_refl s)

@[simp] theorem nil_left (t : List α) : Comparable [] t := Or.inl List.nil_prefix

@[simp] theorem nil_right (s : List α) : Comparable s [] := Or.inr List.nil_prefix

@[simp] theorem cons_iff : Comparable (a :: s) (b :: t) ↔ a = b ∧ Comparable s t := by
  unfold Comparable
  rw [List.cons_prefix_cons, List.cons_prefix_cons, eq_comm (a := b), and_or_left]

theorem exists_ne : ∀ {s t : List α}, ¬ Comparable s t →
    ∃ p a s' b t', s = p ++ a :: s' ∧ t = p ++ b :: t' ∧ a ≠ b
  | [], _, h => absurd (nil_left _) h
  | _ :: _, [], h => absurd (nil_right _) h
  | a :: s, b :: t, h => by
    by_cases hab : a = b
    · have hst : ¬ Comparable s t := fun hst => h (cons_iff.mpr ⟨hab, hst⟩)
      obtain ⟨p, c, s', d, t', rfl, rfl, hcd⟩ := exists_ne hst
      exact ⟨a :: p, c, s', d, t', rfl, by rw [hab, List.cons_append], hcd⟩
    · exact ⟨[], a, s, b, t, rfl, rfl, hab⟩

end Comparable

theorem List.splitOn_cases {α : Type*} [DecidableEq α] (a : α) (l : List α) :
    (a ∉ l ∧ l.splitOn a = [l]) ∨
      ∃ t l', a ∉ t ∧ l = t ++ a :: l' ∧ l.splitOn a = t :: l'.splitOn a := by
  by_cases h : a ∈ l
  · obtain ⟨t, l', rfl, ht⟩ := List.eq_append_cons_of_mem h
    exact Or.inr ⟨t, l', ht, rfl, List.splitOn_append_cons_self_of_not_mem ht l'⟩
  · exact Or.inl ⟨h, List.splitOn_eq_singleton h⟩
