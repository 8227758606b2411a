import Mathlib.Data.Nat.Bitwise

/-! # Bit-fields of a machine word

A field is given by its lowest bit and its length. Writing a field replaces
exactly the bits it occupies, so reads of the same field return the value
written (truncated to the field's length) and reads of disjoint fields are
unaffected. One-bit fields are read as Booleans.
-/

namespace BitField

variable {w : ℕ}

/-- Read the `len` bits of `x` that start at bit `lo`. -/
def get (lo len : ℕ) (x : BitVec w) : ℕ := (x.toNat >>> lo) % 2 ^ len

/-- Replace the `len` bits of `x` that start at bit `lo` by the low bits of `v`. -/
def set (lo len v : ℕ) (x : BitVec w) : BitVec w :=
  (x &&& ~~~(BitVec.ofNat w (2 ^ len - 1) <<< lo)) ||| (BitVec.ofNat w (v % 2 ^ len) <<< lo)

/-- Read a one-bit field. -/
def flag (i : ℕ) (x : BitVec w) : Bool := x.getLsbD i

/-- Write a one-bit field. -/
def setFlag (i : ℕ) (b : Bool) (x : BitVec w) : BitVec w := set i 1 b.toNat x

/-- Set a one-bit field if the condition holds. -/
def raise (i : ℕ) (b : Bool) (x : BitVec w) : BitVec w := if b then setFlag i true x else x

theorem testBit_get (lo len : ℕ) (x : BitVec w) (i : ℕ) :
    (get lo len x).testBit i = (decide (i < len) && x.getLsbD (lo + i)) := by
  simp only [get, Nat.testBit_mod_two_pow, Nat.testBit_shiftRight, BitVec.testBit_toNat]

theorem getLsbD_set (lo len v : ℕ) (x : BitVec w) (i : ℕ) :
    (set lo len v x).getLsbD i =
      if lo ≤ i ∧ i < lo + len ∧ i < w then v.testBit (i - lo) else x.getLsbD i := by
  simp only [set, BitVec.getLsbD_or, BitVec.getLsbD_and, BitVec.getLsbD_not,
    BitVec.getLsbD_shiftLeft, BitVec.getLsbD_ofNat, Nat.testBit_two_pow_sub_one,
    Nat.testBit_mod_two_pow]
  by_cases hw : i < w
  · have hsub : i - lo < w := by omega
    by_cases hlo : i < lo
    · simp [hw, hlo, show ¬ lo ≤ i by omega]
    · by_cases hlen : i - lo < len
      · simp [hw, hlo, hlen, hsub, show lo ≤ i by omega, show i < lo + len by omega]
      · simp [hw, hlo, hlen, show ¬ i < lo + len by omega]
  · simp [hw, BitVec.getLsbD_of_ge x i (by omega)]

theorem get_set_same {lo len : ℕ} (v : ℕ) (x : BitVec w) (h : lo + len ≤ w) :
    get lo len (set lo len v x) = v % 2 ^ len := by
  apply Nat.eq_of_testBit_eq
  intro i
  rw [testBit_get, Nat.testBit_mod_two_pow, getLsbD_set]
  by_cases hi : i < len
  · simp [hi, show lo + i < w by omega]
  · simp [hi]

theorem get_set_of_disjoint {lo len lo' len' : ℕ} (v : ℕ) (x : BitVec w)
    (h : lo' + len' ≤ lo ∨ lo + len ≤ lo') :
    get lo' len' (set lo len v x) = get lo' len' x := by
  apply Nat.eq_of_testBit_eq
  intro i
  rw [testBit_get, testBit_get, getLsbD_set]
  by_cases hi : i < len'
  · rw [if_neg (by omega)]
  · simp [hi]

theorem flag_set_of_notMem {lo len i : ℕ} (v : ℕ) (x : BitVec w) (h : i < lo ∨ lo + len ≤ i) :
    flag i (set lo len v x) = flag i x := by
  rw [flag, getLsbD_set, if_neg (by omega), flag]

theorem flag_setFlag_same {i : ℕ} (b : Bool) (x : BitVec w) (h : i < w) :
    flag i (setFlag i b x) = b := by
  rw [flag, setFlag, getLsbD_set, if_pos ⟨le_rfl, by omega, h⟩]
  cases b <;> simp

theorem flag_setFlag_of_ne {i j : ℕ} (b : Bool) (x : BitVec w) (h : i ≠ j) :
    flag i (setFlag j b x) = flag i x :=
  flag_set_of_notMem _ _ (by omega)

theorem get_setFlag {lo len i : ℕ} (b : Bool) (x : BitVec w) (h : i < lo ∨ lo + len ≤ i) :
    get lo len (setFlag i b x) = get lo len x :=
  get_set_of_disjoint _ _ (by omega)

@[simp] theorem flag_zero (i : ℕ) : flag i 0#w = false := by simp [flag]

@[simp] theorem get_zero (lo len : ℕ) : get lo len 0#w = 0 := by simp [get]

theorem flag_raise_same {i : ℕ} (b : Bool) (x : BitVec w) (h : i < w) :
    flag i (raise i b x) = (b || flag i x) := by
  cases b <;> simp [raise, flag_setFlag_same, h]

theorem flag_raise_of_ne {i j : ℕ} (b : Bool) (x : BitVec w) (h : i ≠ j) :
    flag i (raise j b x) = flag i x := by
  cases b <;> simp [raise, flag_setFlag_of_ne, h]

theorem get_raise {lo len i : ℕ} (b : Bool) (x : BitVec w) (h : i < lo ∨ lo + len ≤ i) :
    get lo len (raise i b x) = get lo len x := by
  cases b <;> simp [raise, get_setFlag, h]

end BitField
