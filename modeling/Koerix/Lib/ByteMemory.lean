import Mathlib.Algebra.Order.Ring.Nat

/-! # Little-endian fields in a partial byte memory

A memory gives a byte to each mapped address. Fields of several bytes are read
and written in little-endian order at any address. A write is seen by a read of
the same field and by no read of a disjoint one, so a sequence of writes is
evaluated by rewriting with the two rules.
-/

namespace ByteMemory

/-- The bytes of the mapped addresses. -/
abbrev View := ℕ → Option UInt8

/-- Read `n` bytes at `a`. -/
def load (v : View) : ℕ → ℕ → Option ℕ
  | _, 0 => some 0
  | a, n + 1 => do
    let b ← v a
    let rest ← load v (a + 1) n
    return b.toNat + 256 * rest

/-- Write the low `n` bytes of `x` at `a`. -/
def write (v : View) (a n x : ℕ) : View :=
  fun p => if a ≤ p ∧ p < a + n then some (UInt8.ofNat (x / 256 ^ (p - a))) else v p

variable {v v' : View} {a a' n n' x y p : ℕ}

theorem write_apply_of_notMem (h : p < a ∨ a + n ≤ p) : write v a n x p = v p :=
  if_neg (by omega)

theorem write_apply_of_mem (h : a ≤ p) (h' : p < a + n) :
    write v a n x p = some (UInt8.ofNat (x / 256 ^ (p - a))) := if_pos ⟨h, h'⟩

theorem write_ne_none (h : v p ≠ none) : write v a n x p ≠ none := by
  unfold write
  split_ifs
  · simp
  · exact h

@[simp] theorem write_zero : write v a 0 x = v := by
  funext p
  exact write_apply_of_notMem (by omega)

theorem write_succ : write v a (n + 1) x =
    write (Function.update v a (some (UInt8.ofNat x))) (a + 1) n (x / 256) := by
  funext p
  rcases Nat.lt_trichotomy p a with hlt | rfl | hgt
  · rw [write_apply_of_notMem (by omega), write_apply_of_notMem (by omega),
      Function.update_of_ne hlt.ne]
  · rw [write_apply_of_mem le_rfl (by omega), write_apply_of_notMem (by omega),
      Function.update_self, Nat.sub_self, pow_zero, Nat.div_one]
  · by_cases hp : p < a + 1 + n
    · rw [write_apply_of_mem hgt.le (by omega), write_apply_of_mem (by omega) hp,
        Nat.div_div_eq_div_mul, ← pow_succ', show p - (a + 1) + 1 = p - a by omega]
    · rw [write_apply_of_notMem (by omega), write_apply_of_notMem (by omega),
        Function.update_of_ne hgt.ne']

theorem load_congr (h : ∀ p, a ≤ p → p < a + n → v p = v' p) : load v a n = load v' a n := by
  induction n generalizing a with
  | zero => rfl
  | succ n ih =>
    rw [load, load, h a le_rfl (by omega), ih fun p hp hp' => h p (by omega) (by omega)]

theorem load_write_of_disjoint (h : a' + n' ≤ a ∨ a + n ≤ a') :
    load (write v a n x) a' n' = load v a' n' :=
  load_congr fun _ _ _ => write_apply_of_notMem (by omega)

theorem load_write_same : load (write v a n x) a n = some (x % 256 ^ n) := by
  induction n generalizing v a x with
  | zero => simp [load, Nat.mod_one]
  | succ n ih =>
    rw [write_succ, load, ih, write_apply_of_notMem (by omega), Function.update_self]
    simp only [Option.bind_eq_bind, Option.bind_some, Option.pure_def, Option.some.injEq,
      UInt8.toNat_ofNat']
    rw [pow_succ' 256 n, Nat.mod_mul]

theorem load_write_eq (h : x < 256 ^ n) : load (write v a n x) a n = some x := by
  rw [load_write_same, Nat.mod_eq_of_lt h]

end ByteMemory
