import Mathlib.Data.Nat.Bitwise
import Koerix.Lib.ByteMemory

/-! # Scanning words for a byte

A word has a zero byte if and only if `(x - 0x01…01) & ~x & 0x80…80` is not zero: below the first
zero byte nothing is borrowed, so that the highest bit of a byte cannot come up, and in the first
zero byte it does.
-/

namespace WordScan

/-- The word of `n` bytes `0x01`, as a number. -/
def onesNat : ℕ → ℕ
  | 0 => 0
  | n + 1 => 256 * onesNat n + 1

/-- `ONES`. -/
def ones (n : ℕ) : BitVec (8 * n) := .ofNat _ ((2 ^ (8 * n) - 1) / 255)

/-- `HIGHS`. -/
def highs (n : ℕ) : BitVec (8 * n) := ones n * .ofNat _ 128

/-- `HASZERO`. -/
def hasZero {n : ℕ} (x : BitVec (8 * n)) : Bool := (x - ones n) &&& ~~~x &&& highs n != 0#_

/-- A byte of a number. -/
def byte (x i : ℕ) : ℕ := x / 256 ^ i % 256

variable {n i j x y b : ℕ}

theorem onesNat_mul (n : ℕ) : 255 * onesNat n + 1 = 256 ^ n := by
  induction n with
  | zero => rfl
  | succ n ih =>
    rw [onesNat, pow_succ, ← ih]
    omega

theorem pow_eight_mul (n : ℕ) : 2 ^ (8 * n) = 256 ^ n := by rw [pow_mul]; rfl

theorem toNat_ones (n : ℕ) : (ones n).toNat = onesNat n := by
  have h := onesNat_mul n
  rw [ones, BitVec.toNat_ofNat, pow_eight_mul, ← h, Nat.add_sub_cancel,
    Nat.mul_div_cancel_left _ (by decide), Nat.mod_eq_of_lt (by omega)]

theorem toNat_highs (n : ℕ) : (highs n).toNat = 128 * onesNat n := by
  have h := onesNat_mul n
  rw [highs, BitVec.toNat_mul, toNat_ones, BitVec.toNat_ofNat, Nat.mul_mod_mod, pow_eight_mul,
    Nat.mul_comm, Nat.mod_eq_of_lt (by omega)]

theorem testBit_cons (hb : b < 256) (y j : ℕ) :
    (256 * y + b).testBit j = if j < 8 then b.testBit j else y.testBit (j - 8) :=
  @Nat.testBit_two_pow_mul_add y b 8 hb j

theorem testBit_seven (hb : b < 256) : b.testBit 7 = decide (128 ≤ b) := by
  rw [Nat.testBit_eq_decide_div_mod_eq]
  exact decide_eq_decide.mpr (by omega)

theorem testBit_highs (n j : ℕ) :
    (128 * onesNat n).testBit j = decide (j % 8 = 7 ∧ j < 8 * n) := by
  induction n generalizing j with
  | zero => simp [onesNat]
  | succ n ih =>
    rw [onesNat, show 128 * (256 * onesNat n + 1) = 256 * (128 * onesNat n) + 128 by omega,
      testBit_cons (by decide)]
    split_ifs with hj
    · rw [show 128 = 2 ^ 7 by rfl, Nat.testBit_two_pow]
      exact decide_eq_decide.mpr (by omega)
    · rw [ih]
      exact decide_eq_decide.mpr (by omega)

/-- `x - 0x01…01`. -/
def less (n x : ℕ) : ℕ := (x + (256 ^ n - onesNat n)) % 256 ^ n

theorem less_cons (hb : b < 256) (h0 : 0 < b) (n y : ℕ) :
    less (n + 1) (256 * y + b) = 256 * less n y + (b - 1) := by
  have h := onesNat_mul n
  have hdiv : (256 * (y + (256 ^ n - onesNat n)) + (b - 1)) / 256 = y + (256 ^ n - onesNat n) := by
    omega
  rw [less, less, onesNat, pow_succ', show 256 * y + b + (256 * 256 ^ n - (256 * onesNat n + 1)) =
    256 * (y + (256 ^ n - onesNat n)) + (b - 1) by omega, Nat.mod_mul, hdiv]
  omega

theorem less_zero_cons (n y : ℕ) : less (n + 1) (256 * y + 0) % 256 = 255 := by
  have h := onesNat_mul n
  rw [less, onesNat, pow_succ', Nat.mod_mul_right_mod]
  omega

theorem byte_cons_zero (hb : b < 256) : byte (256 * y + b) 0 = b := by
  rw [byte, pow_zero, Nat.div_one]
  omega

theorem byte_cons_succ (hb : b < 256) : byte (256 * y + b) (i + 1) = byte y i := by
  rw [byte, byte, pow_succ', ← Nat.div_div_eq_div_mul, show (256 * y + b) / 256 = y by omega]

/-- The highest bit of a byte comes up if and only if some byte is zero. -/
theorem exists_testBit_iff (n x : ℕ) (hx : x < 256 ^ n) :
    (∃ i < n, (less n x).testBit (8 * i + 7) = true ∧ x.testBit (8 * i + 7) = false) ↔
      ∃ i < n, byte x i = 0 := by
  induction n generalizing x with
  | zero => simp
  | succ n ih =>
    obtain ⟨y, b, hb, rfl⟩ : ∃ y b, b < 256 ∧ x = 256 * y + b :=
      ⟨x / 256, x % 256, Nat.mod_lt _ (by decide), (Nat.div_add_mod x 256).symm⟩
    rw [pow_succ'] at hx
    rcases Nat.eq_zero_or_pos b with rfl | h0
    · refine iff_of_true ⟨0, n.succ_pos, ?_, ?_⟩ ⟨0, n.succ_pos, byte_cons_zero (by decide)⟩
      · rw [← Nat.div_add_mod (less (n + 1) (256 * y + 0)) 256, Nat.add_zero, less_zero_cons,
          testBit_cons (by decide)]
        rfl
      · rw [testBit_cons (by decide)]
        rfl
    · have hbit : ∀ i, (less (n + 1) (256 * y + b)).testBit (8 * (i + 1) + 7) =
          (less n y).testBit (8 * i + 7) := by
        intro i
        rw [less_cons hb h0, testBit_cons (by omega), if_neg (by omega)]
        congr 1
      have hbit' : ∀ i, (256 * y + b).testBit (8 * (i + 1) + 7) = y.testBit (8 * i + 7) := by
        intro i
        rw [testBit_cons hb, if_neg (by omega)]
        congr 1
      have hlow : ¬ ((less (n + 1) (256 * y + b)).testBit 7 = true ∧
          (256 * y + b).testBit 7 = false) := by
        rw [less_cons hb h0, testBit_cons (by omega), testBit_cons hb, if_pos (by decide),
          if_pos (by decide), testBit_seven (by omega), testBit_seven hb, decide_eq_true_iff,
          decide_eq_false_iff_not]
        omega
      rw [Nat.exists_lt_succ_left, Nat.exists_lt_succ_left, byte_cons_zero hb]
      simp only [hbit, hbit', byte_cons_succ hb]
      rw [ih y (by omega)]
      simp only [Nat.mul_zero, Nat.zero_add, hlow, false_or, h0.ne']

/-- `HASZERO` finds a zero byte. -/
theorem hasZero_iff (x : BitVec (8 * n)) : hasZero x = true ↔ ∃ i < n, byte x.toNat i = 0 := by
  have hlt : x.toNat < 256 ^ n := pow_eight_mul n ▸ x.isLt
  have hless : (x - ones n).toNat = less n x.toNat := by
    rw [BitVec.toNat_sub, toNat_ones, pow_eight_mul, less, Nat.add_comm]
  have hbit : ∀ j, ((x - ones n) &&& ~~~x &&& highs n).getLsbD j =
      ((less n x.toNat).testBit j && !x.toNat.testBit j && decide (j % 8 = 7 ∧ j < 8 * n)) := by
    intro j
    rw [BitVec.getLsbD_and, BitVec.getLsbD_and, BitVec.getLsbD_not, BitVec.getLsbD,
      BitVec.getLsbD, BitVec.getLsbD, hless, toNat_highs, testBit_highs]
    by_cases hj : j < 8 * n <;> simp [hj]
  rw [← exists_testBit_iff n _ hlt, hasZero, bne_iff_ne, Ne]
  constructor
  · intro hne
    by_contra hno
    refine hne (BitVec.eq_of_getLsbD_eq fun j hj => ?_)
    rw [hbit, BitVec.getLsbD_zero, Bool.and_eq_false_imp, Bool.and_eq_true,
      Bool.not_eq_true', decide_eq_false_iff_not]
    rintro ⟨hset, hclear⟩ ⟨hmod, hj⟩
    obtain ⟨i, rfl⟩ : ∃ i, j = 8 * i + 7 := ⟨j / 8, by omega⟩
    exact hno ⟨i, by omega, hset, hclear⟩
  · rintro ⟨i, hi, hset, hclear⟩ h0
    have h := hbit (8 * i + 7)
    rw [h0, BitVec.getLsbD_zero, hset, hclear] at h
    simp at h
    omega

theorem byte_onesNat_mul (hb : b < 256) (hi : i < n) : byte (onesNat n * b) i = b := by
  induction n generalizing i with
  | zero => omega
  | succ n ih =>
    rw [onesNat, Nat.succ_mul, Nat.mul_assoc]
    cases i with
    | zero => exact byte_cons_zero hb
    | succ i =>
      rw [byte_cons_succ hb]
      exact ih (by omega)

theorem byte_lt (x i : ℕ) : byte x i < 256 := Nat.mod_lt _ (by decide)

theorem byte_xor (x y i : ℕ) : byte (x ^^^ y) i = byte x i ^^^ byte y i := by
  simp only [byte]
  rw [show 256 = 2 ^ 8 by rfl, ← pow_mul, Nat.xor_div_two_pow, Nat.xor_mod_two_pow]

theorem hasZero_xor_iff (x : BitVec (8 * n)) (c : UInt8) :
    hasZero (x ^^^ (ones n * .ofNat _ c.toNat)) = true ↔
      ∃ i < n, byte x.toNat i = c.toNat := by
  have h := onesNat_mul n
  have hc := c.toNat_lt
  have hlt : onesNat n * c.toNat < 256 ^ n := by
    have hle : onesNat n * c.toNat ≤ onesNat n * 255 := Nat.mul_le_mul_left _ (by omega)
    omega
  rw [hasZero_iff, BitVec.toNat_xor, BitVec.toNat_mul, BitVec.toNat_ofNat, Nat.mul_mod_mod,
    toNat_ones, pow_eight_mul, Nat.mod_eq_of_lt hlt]
  refine exists_congr fun i => and_congr_right fun hi => ?_
  rw [byte_xor, byte_onesNat_mul (by omega) hi, Nat.xor_eq_zero_iff]

theorem load_eq_some {v : ByteMemory.View} {a : ℕ} (h : ∀ i < n, v (a + i) ≠ none) :
    ∃ x < 256 ^ n, ByteMemory.load v a n = some x ∧
      ∀ i < n, v (a + i) = some (.ofNat (byte x i)) := by
  induction n generalizing a with
  | zero => exact ⟨0, by decide, rfl, by simp⟩
  | succ n ih =>
    obtain ⟨b, hb⟩ := Option.ne_none_iff_exists'.mp (h 0 n.succ_pos)
    obtain ⟨x, hx, hload, hbytes⟩ := ih (a := a + 1) fun i hi => by
      rw [Nat.add_assoc, Nat.add_comm 1]
      exact h (i + 1) (by omega)
    have hb' := b.toNat_lt
    refine ⟨256 * x + b.toNat, ?_, ?_, fun i hi => ?_⟩
    · rw [pow_succ']
      omega
    · rw [Nat.add_zero] at hb
      rw [ByteMemory.load, hb, Option.bind_eq_bind, Option.bind_some, hload, Option.bind_eq_bind,
        Option.bind_some, Option.pure_def, Nat.add_comm]
    · cases i with
      | zero =>
        rw [hb, byte_cons_zero hb', UInt8.ofNat_toNat]
      | succ i =>
        rw [byte_cons_succ hb', ← hbytes i (by omega), Nat.add_assoc, Nat.add_comm 1]

end WordScan
