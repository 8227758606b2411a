import Mathlib.Data.Nat.Digits.Lemmas

/-! # Numerals

Numbers written in a base up to 36, most significant digit first, with the lower case letters as
the digits from ten on.
-/

namespace Numeral

/-- The character of a digit. -/
def digitChar (d : ℕ) : UInt8 := .ofNat (if d < 10 then 48 + d else 87 + d)

/-- The digit that a character stands for in a base. -/
def digitValue (base : ℕ) (c : UInt8) : Option ℕ :=
  let d := if 48 ≤ c.toNat ∧ c.toNat ≤ 57 then c.toNat - 48
    else if 97 ≤ c.toNat ∧ c.toNat ≤ 122 then c.toNat - 87 else base
  if d < base then some d else none

/-- The number that a text stands for. -/
def read (base : ℕ) (s : List UInt8) : Option ℕ :=
  s.foldlM (fun n c => (digitValue base c).map (n * base + ·)) 0

/-- The digits of a number, least significant first. Zero has one digit. -/
def digits (base n : ℕ) : List ℕ := if n = 0 then [0] else Nat.digits base n

/-- The text is the numeral of the number. -/
structure IsNumeral (base : ℕ) (s : List UInt8) (n : ℕ) : Prop where
  ne_nil : s ≠ []
  valid : ∀ c ∈ s, (digitValue base c).isSome
  leading : s.head? = some (digitChar 0) → n = 0
  read_eq : read base s = some n

variable {base n d : ℕ} {c : UInt8} {s : List UInt8} {ds : List ℕ}

theorem toNat_digitChar (hd : d < 36) :
    (digitChar d).toNat = if d < 10 then 48 + d else 87 + d := by
  rw [digitChar, UInt8.toNat_ofNat']
  split_ifs <;> omega

theorem digitValue_digitChar (hd : d < base) (hbase : base ≤ 36) :
    digitValue base (digitChar d) = some d := by
  have hc := toNat_digitChar (hd.trans_le hbase)
  by_cases h10 : d < 10
  · rw [if_pos h10] at hc
    have hdec : 48 ≤ 48 + d ∧ 48 + d ≤ 57 := by omega
    simp only [digitValue, hc]
    rw [if_pos hdec, Nat.add_sub_cancel_left, if_pos hd]
  · rw [if_neg h10] at hc
    have hdec : ¬ (48 ≤ 87 + d ∧ 87 + d ≤ 57) := by omega
    have hletter : 97 ≤ 87 + d ∧ 87 + d ≤ 122 := by omega
    simp only [digitValue, hc]
    rw [if_neg hdec, if_pos hletter, Nat.add_sub_cancel_left, if_pos hd]

theorem digitChar_eq_zero_iff (hd : d < 36) : digitChar d = digitChar 0 ↔ d = 0 := by
  refine ⟨fun h => ?_, fun h => h ▸ rfl⟩
  have hc := toNat_digitChar hd
  rw [h, toNat_digitChar (by decide)] at hc
  split_ifs at hc <;> omega

theorem read_map_digitChar (hds : ∀ d ∈ ds, d < base) (hbase : base ≤ 36) :
    read base (ds.reverse.map digitChar) = some (Nat.ofDigits base ds) := by
  induction ds with
  | nil => rfl
  | cons d ds ih =>
    have hrest := ih fun d hd => hds d (List.mem_cons_of_mem _ hd)
    rw [read] at hrest ⊢
    rw [List.reverse_cons, List.map_append, List.foldlM_append, hrest, Option.bind_eq_bind,
      Option.bind_some, List.map_singleton, List.foldlM_cons,
      digitValue_digitChar (hds d List.mem_cons_self) hbase, Nat.ofDigits_cons]
    simp only [List.foldlM_nil, Option.map_some, Option.bind_eq_bind, Option.bind_some,
      Option.pure_def, Option.some.injEq]
    ring

theorem digits_lt (hbase : 2 ≤ base) : ∀ d ∈ digits base n, d < base := by
  intro d hd
  rw [digits] at hd
  split_ifs at hd with hn
  · obtain rfl := List.mem_singleton.mp hd
    omega
  · exact Nat.digits_lt_base hbase hd

theorem digits_eq (hbase : 2 ≤ base) (n : ℕ) :
    digits base n = if n / base = 0 then [n % base] else n % base :: digits base (n / base) := by
  rw [digits, digits]
  by_cases hn : n = 0
  · subst hn
    simp
  · rw [if_neg hn, Nat.digits_def' hbase (Nat.pos_of_ne_zero hn)]
    split_ifs with hq
    · rw [hq, Nat.digits_zero]
    · rfl

theorem ofDigits_digits (base n : ℕ) : Nat.ofDigits base (digits base n) = n := by
  rw [digits]
  split_ifs with hn
  · rw [Nat.ofDigits_singleton, hn]
  · exact Nat.ofDigits_digits base n

theorem digits_ne_nil (base n : ℕ) : digits base n ≠ [] := by
  rw [digits]
  split_ifs with hn
  · exact List.cons_ne_nil _ _
  · exact Nat.digits_ne_nil_iff_ne_zero.mpr hn

theorem length_digits_le {w : ℕ} (hbase : 2 ≤ base) (hw : 0 < w) (hn : n < 2 ^ w) :
    (digits base n).length ≤ w := by
  rw [digits]
  split_ifs with h0
  · exact hw
  · refine (Nat.digits_length_le_iff hbase n).mpr (hn.trans_le ?_)
    exact Nat.pow_le_pow_left hbase w

theorem isNumeral_digits (hbase : 2 ≤ base) (hmax : base ≤ 36) (n : ℕ) :
    IsNumeral base ((digits base n).reverse.map digitChar) n where
  ne_nil := by
    rw [Ne, List.map_eq_nil_iff, List.reverse_eq_nil_iff]
    exact digits_ne_nil base n
  valid c hc := by
    obtain ⟨d, hd, rfl⟩ := List.mem_map.mp hc
    rw [digitValue_digitChar (digits_lt hbase d (List.mem_reverse.mp hd)) hmax]
    rfl
  leading h := by
    by_contra hn
    rw [List.head?_map, List.head?_reverse,
      List.getLast?_eq_getLast_of_ne_nil (digits_ne_nil base n), Option.map_some,
      Option.some.injEq] at h
    have hlt := digits_lt hbase _ (List.getLast_mem (digits_ne_nil base n))
    have hz := (digitChar_eq_zero_iff (hlt.trans_le hmax)).mp h
    simp only [digits, if_neg hn] at hz
    exact Nat.getLast_digit_ne_zero base hn hz
  read_eq := by
    rw [read_map_digitChar (digits_lt hbase) hmax, ofDigits_digits]

end Numeral
