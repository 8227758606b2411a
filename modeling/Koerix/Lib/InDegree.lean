import Mathlib.Data.Finset.Card
import Mathlib.Data.Fintype.Card
import Mathlib.Data.Finset.Union
import Mathlib.Algebra.BigOperators.Ring.Finset
import Mathlib.Algebra.BigOperators.Group.Finset.Sigma

/-! # In-degrees of a finite pointer structure

A finite set of slots, each holding at most one pointer. The in-degree of a
target is the number of slots that point to it. The lemmas say how in-degrees
react to redirecting one slot and to adding slots, which is what an exact
reference count has to follow.
-/

namespace InDegree

variable {κ ν ρ : Type*} [DecidableEq ν]

/-- Number of slots in `S` that point to `x`. -/
def deg (S : Finset κ) (target : κ → Option ν) (x : ν) : ℕ :=
  (S.filter fun k => target k = some x).card

/-- One if the pointer is `x`, else zero. -/
def hit (o : Option ν) (x : ν) : ℕ := if o = some x then 1 else 0

@[simp] theorem hit_none (x : ν) : hit none x = 0 := by simp [hit]

@[simp] theorem hit_self (x : ν) : hit (some x) x = 1 := by simp [hit]

theorem hit_of_ne {o : Option ν} {x : ν} (h : o ≠ some x) : hit o x = 0 := by simp [hit, h]

variable {S T : Finset κ} {target target' : κ → Option ν} {x : ν}

theorem deg_eq_sum : deg S target x = ∑ k ∈ S, hit (target k) x := by
  rw [deg, Finset.card_filter]
  rfl

theorem deg_pos_iff : 0 < deg S target x ↔ ∃ k ∈ S, target k = some x := by
  rw [deg, Finset.card_pos]
  simp [Finset.Nonempty]

theorem deg_eq_zero_iff : deg S target x = 0 ↔ ∀ k ∈ S, target k ≠ some x := by
  rw [deg, Finset.card_eq_zero, Finset.filter_eq_empty_iff]

theorem eq_of_deg_le_one (h : deg S target x ≤ 1) {k k' : κ} (hk : k ∈ S) (hk' : k' ∈ S)
    (ht : target k = some x) (ht' : target k' = some x) : k = k' :=
  Finset.card_le_one.mp h k (by simp [hk, ht]) k' (by simp [hk', ht'])

theorem exists_ne_of_one_lt_deg (h : 1 < deg S target x) :
    ∃ k ∈ S, ∃ k' ∈ S, target k = some x ∧ target k' = some x ∧ k ≠ k' := by
  obtain ⟨k, hk, k', hk', hne⟩ := Finset.one_lt_card.mp h
  obtain ⟨hS, ht⟩ := Finset.mem_filter.mp hk
  obtain ⟨hS', ht'⟩ := Finset.mem_filter.mp hk'
  exact ⟨k, hS, k', hS', ht, ht', hne⟩

theorem deg_congr (h : ∀ k ∈ S, target k = some x ↔ target' k = some x) :
    deg S target x = deg S target' x := by
  rw [deg, deg, Finset.filter_congr h]

theorem deg_union [DecidableEq κ] (h : Disjoint S T) :
    deg (S ∪ T) target x = deg S target x + deg T target x := by
  rw [deg_eq_sum, deg_eq_sum, deg_eq_sum, Finset.sum_union h]

theorem deg_filter_add_deg_filter_not (p : κ → Prop) [DecidablePred p] :
    deg (S.filter p) target x + deg (S.filter fun k => ¬ p k) target x = deg S target x := by
  simp only [deg_eq_sum]
  exact Finset.sum_filter_add_sum_filter_not S p _

theorem deg_redirect [DecidableEq κ] {k : κ} (hk : k ∈ S)
    (h : ∀ j ∈ S, j ≠ k → target' j = target j) :
    deg S target' x + hit (target k) x = deg S target x + hit (target' k) x := by
  have hrest : ∑ j ∈ S.erase k, hit (target' j) x = ∑ j ∈ S.erase k, hit (target j) x :=
    Finset.sum_congr rfl fun j hj =>
      by rw [h j (Finset.mem_of_mem_erase hj) (Finset.ne_of_mem_erase hj)]
  rw [deg_eq_sum, deg_eq_sum, ← Finset.add_sum_erase S _ hk, ← Finset.add_sum_erase S _ hk, hrest]
  omega

theorem deg_le_card {R : Finset ρ} (f : κ → ρ) (hf : ∀ k ∈ S, target k = some x → f k ∈ R)
    (hinj : ∀ k ∈ S, ∀ k' ∈ S, target k = some x → target k' = some x → f k = f k' → k = k') :
    deg S target x ≤ R.card := by
  apply Finset.card_le_card_of_injOn f
  · intro k hk
    obtain ⟨hS, ht⟩ := Finset.mem_filter.mp hk
    exact hf k hS ht
  · intro k hk k' hk' he
    obtain ⟨hS, ht⟩ := Finset.mem_filter.mp hk
    obtain ⟨hS', ht'⟩ := Finset.mem_filter.mp hk'
    exact hinj k hS k' hS' ht ht' he

section Counted

variable [Fintype κ] [DecidableEq κ] {refs : ν → UInt64} {k : κ}

/-- Every counter holds the number of slots that point to its target. -/
def Counted (target : κ → Option ν) (refs : ν → UInt64) : Prop :=
  ∀ x, (refs x).toNat = deg Finset.univ target x

theorem deg_update (o : Option ν) : deg Finset.univ (Function.update target k o) x +
    hit (target k) x = deg Finset.univ target x + hit o x := by
  have h := deg_redirect (x := x) (Finset.mem_univ k) fun j _ hj =>
    Function.update_of_ne hj o target
  rwa [Function.update_self] at h

omit [DecidableEq κ] in
theorem Counted.pos (h : Counted target refs) (hk : target k = some x) : 0 < (refs x).toNat := by
  rw [h x, deg_pos_iff]
  exact ⟨k, Finset.mem_univ k, hk⟩

omit [DecidableEq κ] in
theorem Counted.ne_zero (h : Counted target refs) (hk : target k = some x) : refs x ≠ 0 := by
  intro hz
  simpa [hz] using h.pos hk

theorem Counted.attach (h : Counted target refs) (hcard : Fintype.card κ < 2 ^ 64)
    (hk : target k = none) :
    Counted (Function.update target k (some x)) (Function.update refs x (refs x + 1)) := by
  intro y
  have hdeg : deg Finset.univ (Function.update target k (some x)) y + hit (target k) y =
      deg Finset.univ target y + hit (some x) y := deg_update (some x)
  have hle : deg Finset.univ (Function.update target k (some x)) y ≤ Fintype.card κ :=
    Finset.card_le_univ _
  rw [hk, hit_none, Nat.add_zero] at hdeg
  rcases eq_or_ne y x with rfl | hne
  · rw [hit_self] at hdeg
    rw [Function.update_self, UInt64.toNat_add, h y, UInt64.toNat_one, hdeg, Nat.mod_eq_of_lt]
    omega
  · rw [hit_of_ne (by simpa using hne.symm), Nat.add_zero] at hdeg
    rw [Function.update_of_ne hne, h y, hdeg]

theorem Counted.detach (h : Counted target refs) (hk : target k = some x) :
    Counted (Function.update target k none) (Function.update refs x (refs x - 1)) := by
  intro y
  have hdeg : deg Finset.univ (Function.update target k none) y + hit (target k) y =
      deg Finset.univ target y + hit none y := deg_update none
  rw [hk, hit_none, Nat.add_zero] at hdeg
  rcases eq_or_ne y x with rfl | hne
  · have hpos := h.pos hk
    rw [hit_self] at hdeg
    rw [Function.update_self, UInt64.toNat_sub_of_le, h y, UInt64.toNat_one, ← hdeg,
      Nat.add_sub_cancel]
    rw [UInt64.le_iff_toNat_le, UInt64.toNat_one]
    exact hpos
  · rw [hit_of_ne (by simpa using hne.symm), Nat.add_zero] at hdeg
    rw [Function.update_of_ne hne, h y, hdeg]

end Counted

end InDegree
