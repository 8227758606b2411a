import Koerix.Lib.Numeral

/-! # Numbers as text

`itoa` and its siblings write the digits of a number behind each other, the last one first, and
turn them round in place. A buffer is what stands at the addresses from `str` on. Negating the
smallest number of a type gives the same number again.
-/

namespace Koerix.Itoa

open Numeral

/-- `nchar`. -/
def nchar (index : BitVec 32) : UInt8 :=
  if index < 10 then .ofNat (48 + index).toNat else .ofNat (97 + index - 10).toNat

/-- `strlen`, which looks at no more than so many characters. -/
def strlen (buf : ℕ → UInt8) : ℕ → ℕ → Option ℕ
  | 0, _ => none
  | fuel + 1, len => if buf len = 0 then some len else strlen buf fuel (len + 1)

/-- One iteration of the loop in `strrev`. -/
def swap (len : ℕ) (buf : ℕ → UInt8) (i : ℕ) : ℕ → UInt8 :=
  let tmp := buf i
  let buf := Function.update buf i (buf (len - 1 - i))
  Function.update buf (len - 1 - i) tmp

def strrev (buf : ℕ → UInt8) (fuel : ℕ) : Option (ℕ → UInt8) := do
  let len ← strlen buf fuel 0
  return (List.range (len / 2)).foldl (swap len) buf

variable {w : ℕ}

/-- The loop over the digits, which ends after as many steps as the type has bits unless it does
not end: the buffer and `bufPtr`. A division by zero is a fault. -/
def digitLoop (rem quot : BitVec w → BitVec w → BitVec w) (div : BitVec w) :
    ℕ → BitVec w → (ℕ → UInt8) → ℕ → Option ((ℕ → UInt8) × ℕ)
  | 0, _, _, _ => none
  | fuel + 1, value, buf, bufPtr =>
    if div = 0 then none
    else
      let n := (rem value div).setWidth 32
      let buf := Function.update buf bufPtr (nchar n)
      let value := quot value div
      if value = 0 then some (buf, bufPtr + 1)
      else digitLoop rem quot div fuel value buf (bufPtr + 1)

/-- The body of `itoa` and `ltoa`. -/
def formatSigned (value : BitVec w) (str : ℕ → UInt8) (base : BitVec 32) :
    Option (ℕ → UInt8) := do
  let isNegative := value.slt 0
  let value := if isNegative then -value else value
  let (buf, bufPtr) ← digitLoop BitVec.srem BitVec.sdiv (base.signExtend w) (w + 1) value str 0
  let (buf, bufPtr) :=
    if isNegative then (Function.update buf bufPtr 45, bufPtr + 1) else (buf, bufPtr)
  strrev (Function.update buf bufPtr 0) (bufPtr + 1)

/-- The body of `utoa` and `ultoa`. -/
def formatUnsigned (value : BitVec w) (str : ℕ → UInt8) (base : BitVec 32) :
    Option (ℕ → UInt8) := do
  let (buf, bufPtr) ← digitLoop BitVec.umod BitVec.udiv (base.signExtend w) (w + 1) value str 0
  strrev (Function.update buf bufPtr 0) (bufPtr + 1)

def itoa (value : Int32) (str : ℕ → UInt8) (base : Int32) : Option (ℕ → UInt8) :=
  formatSigned value.toBitVec str base.toBitVec

def ltoa (value : Int64) (str : ℕ → UInt8) (base : Int32) : Option (ℕ → UInt8) :=
  formatSigned value.toBitVec str base.toBitVec

def utoa (value : UInt32) (str : ℕ → UInt8) (base : Int32) : Option (ℕ → UInt8) :=
  formatUnsigned value.toBitVec str base.toBitVec

def ultoa (value : UInt64) (str : ℕ → UInt8) (base : Int32) : Option (ℕ → UInt8) :=
  formatUnsigned value.toBitVec str base.toBitVec

/-- The text and the NUL that ends it stand in the buffer. -/
structure Holds (buf : ℕ → UInt8) (s : List UInt8) : Prop where
  chars : ∀ i c, s[i]? = some c → buf i = c
  nul : buf s.length = 0
  nul_notMem : 0 ∉ s

/-- The numeral of an integer: `-` in front of that of a negative number. -/
def IsSigned (base : ℕ) (s : List UInt8) (z : ℤ) : Prop :=
  z < 0 ∧ (∃ ds, s = 45 :: ds ∧ IsNumeral base ds z.natAbs) ∨
    0 ≤ z ∧ IsNumeral base s z.natAbs

variable {buf buf' : ℕ → UInt8} {s t : List UInt8} {len k i j p fuel : ℕ} {c : UInt8}

/-- The characters of a text, one after the other. -/
def writeText (buf : ℕ → UInt8) : ℕ → List UInt8 → ℕ → UInt8
  | _, [] => buf
  | p, c :: s => writeText (Function.update buf p c) (p + 1) s

theorem writeText_append (buf : ℕ → UInt8) (p : ℕ) (s t : List UInt8) :
    writeText buf p (s ++ t) = writeText (writeText buf p s) (p + s.length) t := by
  induction s generalizing buf p with
  | nil => rfl
  | cons c s ih =>
    rw [List.cons_append, writeText, writeText, ih, List.length_cons, Nat.add_assoc,
      Nat.add_comm 1]

theorem writeText_of_lt (h : j < p) : writeText buf p s j = buf j := by
  induction s generalizing buf p with
  | nil => rfl
  | cons c s ih => rw [writeText, ih (by omega), Function.update_of_ne (by omega)]

theorem writeText_add (h : s[i]? = some c) : writeText buf p s (p + i) = c := by
  induction s generalizing buf p i with
  | nil => simp at h
  | cons d s ih =>
    rw [writeText]
    cases i with
    | zero =>
      have hget : writeText (Function.update buf p d) (p + 1) s p = d := by
        rw [writeText_of_lt (Nat.lt_succ_self p), Function.update_self]
      exact hget.trans (by simpa using h)
    | succ i =>
      rw [show p + (i + 1) = p + 1 + i by omega]
      exact ih (by simpa using h)

theorem holds_writeText (hs : 0 ∉ s) : Holds (writeText buf 0 (s ++ [0])) s where
  chars i c hi := by
    have hlt := (List.getElem?_eq_some_iff.mp hi).1
    rw [← Nat.zero_add i]
    exact writeText_add (by rw [List.getElem?_append_left hlt, hi])
  nul := by
    rw [← Nat.zero_add s.length]
    exact writeText_add (by simp)
  nul_notMem := hs

theorem strlen_of_holds (h : Holds buf s) (hi : i ≤ s.length) (hf : s.length < i + fuel) :
    strlen buf fuel i = some s.length := by
  induction fuel generalizing i with
  | zero => omega
  | succ fuel ih =>
    rw [strlen]
    rcases hi.eq_or_lt with rfl | hlt
    · rw [if_pos h.nul]
    · have hget := List.getElem?_eq_getElem hlt
      have hne : buf i ≠ 0 := by
        rw [h.chars i _ hget]
        exact fun he => h.nul_notMem (he ▸ List.getElem_mem hlt)
      rw [if_neg hne, ih hlt (by omega)]

theorem foldl_swap (hk : k ≤ len / 2) (j : ℕ) :
    (List.range k).foldl (swap len) buf j =
      if j < k ∨ len - k ≤ j ∧ j < len then buf (len - 1 - j) else buf j := by
  induction k generalizing j with
  | zero =>
    rw [List.range_zero, List.foldl_nil, if_neg (by omega)]
  | succ k ih =>
    have ih := fun j => ih (by omega) j
    rw [List.range_succ, List.foldl_append, List.foldl_cons, List.foldl_nil, swap]
    by_cases hlast : j = len - 1 - k
    · subst hlast
      rw [Function.update_self, ih, if_neg (by omega), if_pos (by omega),
        show len - 1 - (len - 1 - k) = k by omega]
    rw [Function.update_of_ne hlast]
    by_cases hfirst : j = k
    · subst hfirst
      rw [Function.update_self, ih, if_neg (by omega), if_pos (by omega)]
    rw [Function.update_of_ne hfirst, ih]
    exact if_congr (by omega) rfl rfl

/-- `strrev` turns the text round. -/
theorem strrev_of_holds (h : Holds buf s) (hf : s.length < fuel) :
    ∃ buf', strrev buf fuel = some buf' ∧ Holds buf' s.reverse := by
  have hlen := strlen_of_holds h (Nat.zero_le _) (by omega : s.length < 0 + fuel)
  refine ⟨_, by rw [strrev, hlen]; rfl, fun i c hi => ?_, ?_, ?_⟩
  · have hlt := (List.getElem?_eq_some_iff.mp hi).1
    rw [List.length_reverse] at hlt
    rw [List.getElem?_reverse hlt] at hi
    rw [foldl_swap le_rfl]
    split_ifs with hj
    · exact h.chars _ c hi
    · rw [show i = s.length - 1 - i by omega]
      exact h.chars _ c hi
  · rw [List.length_reverse, foldl_swap le_rfl, if_neg (by omega), h.nul]
  · rw [List.mem_reverse]
    exact h.nul_notMem

section Digits

variable {rem quot : BitVec w → BitVec w → BitVec w} {div value : BitVec w} {base : ℕ}

/-- The characters that the loop writes. -/
def digitChars (rem quot : BitVec w → BitVec w → BitVec w) (div : BitVec w) :
    ℕ → BitVec w → Option (List UInt8)
  | 0, _ => none
  | fuel + 1, value =>
    if div = 0 then none
    else
      let c := nchar ((rem value div).setWidth 32)
      if quot value div = 0 then some [c]
      else (digitChars rem quot div fuel (quot value div)).map (c :: ·)

theorem digitLoop_eq (buf : ℕ → UInt8) (p fuel : ℕ) (value : BitVec w) :
    digitLoop rem quot div fuel value buf p =
      (digitChars rem quot div fuel value).map fun s => (writeText buf p s, p + s.length) := by
  induction fuel generalizing buf p value with
  | zero => rfl
  | succ fuel ih =>
    simp only [digitLoop, digitChars]
    split_ifs
    · rfl
    · rfl
    · rw [ih, Option.map_map]
      congr 1
      funext s
      simp only [Function.comp, writeText, List.length_cons, Nat.add_assoc, Nat.add_comm 1]

theorem strrev_writeText (buf : ℕ → UInt8) (hs : 0 ∉ s) : ∃ buf',
    strrev (Function.update (writeText buf 0 s) s.length 0) (s.length + 1) = some buf' ∧
      Holds buf' s.reverse := by
  have hbuf : Function.update (writeText buf 0 s) s.length 0 = writeText buf 0 (s ++ [0]) := by
    rw [writeText_append, Nat.zero_add]
    rfl
  rw [hbuf]
  exact strrev_of_holds (holds_writeText hs) (Nat.lt_succ_self _)

theorem nchar_eq_digitChar {d : ℕ} {n : BitVec 32} (hn : n.toNat = d) (hd : d < 36) :
    nchar n = digitChar d := by
  have hlt : n < 10 ↔ d < 10 := by
    rw [BitVec.lt_def, hn]
    rfl
  rw [nchar, digitChar]
  by_cases h10 : d < 10
  · rw [if_pos (hlt.mpr h10), if_pos h10, BitVec.toNat_add, hn]
    congr 1
    exact Nat.mod_eq_of_lt (by simp; omega)
  · rw [if_neg (hlt.not.mpr h10), if_neg h10]
    congr 1
    rw [BitVec.toNat_sub, BitVec.toNat_add, hn]
    have h97 : (97 : BitVec 32).toNat = 97 := rfl
    have hten : (10 : BitVec 32).toNat = 10 := rfl
    rw [h97, hten]
    omega

/-- An unsigned division gives the digits. -/
theorem digitChars_udiv (hdiv : div.toNat = base) (hbase : 2 ≤ base) (hmax : base ≤ 36)
    (hf : (digits base value.toNat).length ≤ fuel) :
    digitChars BitVec.umod BitVec.udiv div fuel value =
      some ((digits base value.toNat).map digitChar) := by
  induction fuel generalizing value with
  | zero => exact absurd (List.length_eq_zero_iff.mp (Nat.le_zero.mp hf)) (digits_ne_nil _ _)
  | succ fuel ih =>
    have hne : div ≠ 0 := by
      rintro rfl
      rw [← hdiv] at hbase
      simp at hbase
    have hlt : value.toNat % base < base := Nat.mod_lt _ (by omega)
    have hmod : ((BitVec.umod value div).setWidth 32).toNat = value.toNat % base := by
      rw [BitVec.toNat_setWidth, BitVec.umod_eq, BitVec.toNat_umod, hdiv]
      exact Nat.mod_eq_of_lt (by omega)
    have hquot : (BitVec.udiv value div).toNat = value.toNat / base := by
      rw [BitVec.udiv_eq, BitVec.toNat_udiv, hdiv]
    have hzero : BitVec.udiv value div = 0 ↔ value.toNat / base = 0 := by
      rw [← hquot]
      exact BitVec.toNat_eq
    rw [digits_eq hbase] at hf ⊢
    rw [digitChars, if_neg hne]
    simp only [nchar_eq_digitChar hmod (by omega), hzero]
    split_ifs at hf ⊢ with hq
    · rfl
    · rw [ih (by rw [hquot]; simpa using hf), hquot]
      rfl

theorem digitChars_sdiv (hdiv : div.msb = false) (hvalue : value.msb = false) :
    digitChars BitVec.srem BitVec.sdiv div fuel value =
      digitChars BitVec.umod BitVec.udiv div fuel value := by
  induction fuel generalizing value with
  | zero => rfl
  | succ fuel ih =>
    have hrem : BitVec.srem value div = BitVec.umod value div := by
      rw [BitVec.srem_eq, hvalue, hdiv]
      rfl
    have hquot : BitVec.sdiv value div = BitVec.udiv value div := by
      rw [BitVec.sdiv_eq, hvalue, hdiv]
    have hmsb : (BitVec.udiv value div).msb = false := by
      have hle := Nat.div_le_self value.toNat div.toNat
      rw [BitVec.msb_eq_false_iff_two_mul_lt] at hvalue ⊢
      rw [BitVec.udiv_eq, BitVec.toNat_udiv]
      omega
    simp only [digitChars, hrem, hquot, ih hmsb]

/-- What the loop does with the smallest number in a base: the digits are negative. -/
def MinMisread (w base : ℕ) : Prop :=
  (digitChars BitVec.srem BitVec.sdiv (.ofNat w base) (w + 1) (BitVec.intMin w)).any (fun s =>
    0 ∉ s ∧ read base s.reverse ≠ some (2 ^ (w - 1))) = true

instance (w base : ℕ) : Decidable (MinMisread w base) := inferInstanceAs (Decidable (_ = true))

theorem minMisread : ∀ base < 37, 2 ≤ base → MinMisread 32 base ∧ MinMisread 64 base := by
  decide +kernel

theorem signExtend_base {base : BitVec 32} (hw : 32 ≤ w) (h : 0 ≤ base.toInt) :
    (base.signExtend w).msb = false ∧ (base.signExtend w).toNat = base.toInt.toNat := by
  have hint : (base.signExtend w).toInt = base.toInt := BitVec.toInt_signExtend_of_le hw
  have hmsb : (base.signExtend w).msb = false := by
    rw [BitVec.msb_eq_toInt, hint]
    exact decide_eq_false (by omega)
  refine ⟨hmsb, ?_⟩
  rw [BitVec.toInt_eq_toNat_of_msb hmsb] at hint
  omega

theorem zero_notMem_digits {n : ℕ} (hbase : 2 ≤ base) (hmax : base ≤ 36) :
    0 ∉ (digits base n).map digitChar := by
  intro h
  obtain ⟨d, hd, hz⟩ := List.mem_map.mp h
  have hlt := digits_lt hbase d hd
  have hnat := toNat_digitChar (hlt.trans_le hmax)
  rw [hz, UInt8.toNat_zero] at hnat
  split_ifs at hnat <;> omega

end Digits

/-- `formatUnsigned` writes the numeral. -/
theorem formatUnsigned_isNumeral (hw : 32 ≤ w) (value : BitVec w) (buf : ℕ → UInt8)
    {base : BitVec 32} (hbase : 2 ≤ base.toInt) (hmax : base.toInt ≤ 36) :
    ∃ buf' s, formatUnsigned value buf base = some buf' ∧ Holds buf' s ∧
      IsNumeral base.toInt.toNat s value.toNat := by
  obtain ⟨-, hdiv⟩ := signExtend_base hw (by omega : 0 ≤ base.toInt)
  have hb : 2 ≤ base.toInt.toNat := by omega
  have hm : base.toInt.toNat ≤ 36 := by omega
  have hlen := length_digits_le hb (by omega) value.isLt
  have hchars := digitChars_udiv hdiv hb hm (hlen.trans (Nat.le_succ w))
  obtain ⟨buf', hrev, hholds⟩ := strrev_writeText buf
    (zero_notMem_digits (n := value.toNat) hb hm)
  refine ⟨buf', _, ?_, hholds, ?_⟩
  · simp only [formatUnsigned, digitLoop_eq, hchars, Option.map_some, Option.bind_eq_bind,
      Option.bind_some, Nat.zero_add]
    exact hrev
  · rw [← List.map_reverse]
    exact isNumeral_digits hb hm _

/-- The characters of a signed number, and the sign. -/
theorem formatSigned_eq {value div : BitVec w} {base : BitVec 32} (buf : ℕ → UInt8)
    (hdiv : base.signExtend w = div)
    (hs : digitChars BitVec.srem BitVec.sdiv div (w + 1)
      (if value.msb then -value else value) = some s) (hnul : 0 ∉ s) :
    ∃ buf', formatSigned value buf base = some buf' ∧
      Holds buf' ((if value.msb then [45] else []) ++ s.reverse) := by
  cases hmsb : value.msb with
  | false =>
    rw [hmsb, if_neg Bool.false_ne_true] at hs
    obtain ⟨buf', hrev, hholds⟩ := strrev_writeText buf hnul
    refine ⟨buf', ?_, hholds⟩
    have hslt : value.slt 0 = false := BitVec.slt_zero_eq_msb.trans hmsb
    simp only [formatSigned, digitLoop_eq, hdiv, hslt, Bool.false_eq_true, if_false, hs,
      Option.map_some, Option.bind_eq_bind, Option.bind_some, Nat.zero_add]
    exact hrev
  | true =>
    rw [hmsb, if_pos rfl] at hs
    have hnul' : 0 ∉ s ++ [45] := by
      rw [List.mem_append, not_or]
      exact ⟨hnul, by decide⟩
    obtain ⟨buf', hrev, hholds⟩ := strrev_writeText buf hnul'
    rw [writeText_append, Nat.zero_add, List.length_append] at hrev
    refine ⟨buf', ?_, ?_⟩
    · have hslt : value.slt 0 = true := BitVec.slt_zero_eq_msb.trans hmsb
      simp only [formatSigned, digitLoop_eq, hdiv, hslt, if_true, hs, Option.map_some,
        Option.bind_eq_bind, Option.bind_some, Nat.zero_add]
      exact hrev
    · rwa [List.reverse_append] at hholds

theorem Holds.unique (hs : Holds buf s) (ht : Holds buf t) : s = t := by
  have hle : ∀ {s t : List UInt8}, Holds buf s → Holds buf t → t.length ≤ s.length := by
    intro s t hs ht
    by_contra hlt
    rw [not_le] at hlt
    have hget := List.getElem?_eq_getElem hlt
    have hz := ht.chars _ _ hget
    rw [hs.nul] at hz
    exact ht.nul_notMem (hz ▸ List.getElem_mem hlt)
  have hlen : s.length = t.length := le_antisymm (hle ht hs) (hle hs ht)
  refine List.ext_getElem hlen fun i hi hi' => ?_
  rw [← hs.chars i _ (List.getElem?_eq_getElem hi), ht.chars i _ (List.getElem?_eq_getElem hi')]

/-- `formatSigned` writes the numeral of every number but the smallest one. -/
theorem formatSigned_isSigned_iff (hw : 32 ≤ w) (value : BitVec w) (buf : ℕ → UInt8)
    {base : BitVec 32} (hbase : 2 ≤ base.toInt) (hmax : base.toInt ≤ 36)
    (hmin : MinMisread w base.toInt.toNat) :
    (∃ buf' s, formatSigned value buf base = some buf' ∧ Holds buf' s ∧
      IsSigned base.toInt.toNat s value.toInt) ↔ value ≠ BitVec.intMin w := by
  obtain ⟨hdmsb, hdiv⟩ := signExtend_base hw (by omega : 0 ≤ base.toInt)
  have hb : 2 ≤ base.toInt.toNat := by omega
  have hm : base.toInt.toNat ≤ 36 := by omega
  constructor
  · rintro ⟨buf', s, hrun, hholds, hsigned⟩ rfl
    have hof : base.signExtend w = .ofNat w base.toInt.toNat := by
      apply BitVec.eq_of_toNat_eq
      rw [BitVec.toNat_ofNat, hdiv, Nat.mod_eq_of_lt]
      have hpow : 2 ^ 32 ≤ 2 ^ w := Nat.pow_le_pow_right (by decide) hw
      omega
    have hmsb : (BitVec.intMin w).msb = true := by
      rw [BitVec.msb_intMin]
      exact decide_eq_true (by omega)
    have hneg : (BitVec.intMin w).toInt = -2 ^ (w - 1) := BitVec.toInt_intMin_of_pos (by omega)
    rw [MinMisread, Option.any_eq_true] at hmin
    obtain ⟨cs, hcs, hbad⟩ := hmin
    obtain ⟨hnul, hread⟩ := of_decide_eq_true hbad
    obtain ⟨buf'', hrun', hholds'⟩ := formatSigned_eq buf hof
      (by rwa [hmsb, if_pos rfl, BitVec.neg_intMin]) hnul
    obtain rfl : buf' = buf'' := Option.some.inj (hrun.symm.trans hrun')
    have hs := hholds.unique hholds'
    have hpos : (0 : ℤ) < 2 ^ (w - 1) := by positivity
    rw [hmsb, if_pos rfl, List.singleton_append] at hs
    obtain ⟨-, ds, rfl, hds⟩ | ⟨hge, -⟩ := hsigned
    · obtain rfl := (List.cons.inj hs).2
      refine hread (hds.read_eq.trans ?_)
      rw [hneg, Int.natAbs_neg, Int.natAbs_pow]
      rfl
    · omega
  · intro hne
    have habs : (if value.msb then -value else value).msb = false ∧
        (if value.msb then -value else value).toNat = value.toInt.natAbs := by
      cases hmsb : value.msb with
      | false =>
        refine ⟨hmsb, ?_⟩
        rw [BitVec.toInt_eq_toNat_of_msb hmsb]
        rfl
      | true =>
        have hz : value ≠ 0 := by
          rintro rfl
          simp at hmsb
        have hneg : (-value).msb = false := by
          rw [BitVec.msb_neg_of_ne_intMin_of_ne_zero hne hz, hmsb]
          rfl
        refine ⟨hneg, ?_⟩
        have hint := BitVec.toInt_neg_of_ne_intMin hne
        rw [BitVec.toInt_eq_toNat_of_msb hneg] at hint
        rw [if_pos rfl]
        omega
    have hlen := length_digits_le hb (by omega) (if value.msb then -value else value).isLt
    have hchars := digitChars_udiv hdiv hb hm (hlen.trans (Nat.le_succ w))
    rw [← digitChars_sdiv hdmsb habs.1, habs.2] at hchars
    obtain ⟨buf', hrun, hholds⟩ := formatSigned_eq buf rfl hchars (zero_notMem_digits hb hm)
    refine ⟨buf', _, hrun, hholds, ?_⟩
    have hnum := isNumeral_digits hb hm value.toInt.natAbs
    rw [← List.map_reverse, IsSigned]
    cases hmsb : value.msb with
    | false =>
      refine .inr ⟨?_, hnum⟩
      rw [BitVec.toInt_eq_toNat_of_msb hmsb]
      exact Int.natCast_nonneg _
    | true =>
      refine .inl ⟨?_, _, rfl, hnum⟩
      rw [BitVec.msb_eq_toInt] at hmsb
      exact of_decide_eq_true hmsb

/-- `utoa` and `ultoa` write the numeral of every number. -/
theorem utoa_ultoa_isNumeral (str : ℕ → UInt8) (base : Int32) (hbase : 2 ≤ base.toInt)
    (hmax : base.toInt ≤ 36) :
    (∀ value : UInt32, ∃ buf s, utoa value str base = some buf ∧ Holds buf s ∧
      IsNumeral base.toInt.toNat s value.toNat) ∧
    ∀ value : UInt64, ∃ buf s, ultoa value str base = some buf ∧ Holds buf s ∧
      IsNumeral base.toInt.toNat s value.toNat :=
  ⟨fun value => formatUnsigned_isNumeral le_rfl value.toBitVec str hbase hmax,
    fun value => formatUnsigned_isNumeral (by decide) value.toBitVec str hbase hmax⟩

theorem utoa_ultoa_isNumeral_hex :
    ∃ buf s, ultoa 48879 (fun _ => 0) 16 = some buf ∧ Holds buf s ∧ IsNumeral 16 s 48879 :=
  (utoa_ultoa_isNumeral (fun _ => 0) 16 (by decide) (by decide)).2 48879

example : ((ultoa 48879 (fun _ => 0) 16).map fun buf => (List.range 5).map buf) =
    some [98, 101, 101, 102, 0] := by
  decide +kernel

/-- `itoa` and `ltoa` write the numeral of every number but the smallest one. -/
theorem itoa_ltoa_isSigned_iff (str : ℕ → UInt8) (base : Int32) (hbase : 2 ≤ base.toInt)
    (hmax : base.toInt ≤ 36) :
    (∀ value : Int32, (∃ buf s, itoa value str base = some buf ∧ Holds buf s ∧
      IsSigned base.toInt.toNat s value.toInt) ↔ value ≠ Int32.minValue) ∧
    ∀ value : Int64, (∃ buf s, ltoa value str base = some buf ∧ Holds buf s ∧
      IsSigned base.toInt.toNat s value.toInt) ↔ value ≠ Int64.minValue := by
  obtain ⟨h32, h64⟩ := minMisread base.toInt.toNat (by omega) (by omega)
  refine ⟨fun value => ?_, fun value => ?_⟩
  · refine (formatSigned_isSigned_iff le_rfl value.toBitVec str hbase hmax h32).trans ?_
    rw [show BitVec.intMin 32 = Int32.minValue.toBitVec by decide]
    exact not_congr Int32.toBitVec_inj
  · refine (formatSigned_isSigned_iff (by decide) value.toBitVec str hbase hmax h64).trans ?_
    rw [show BitVec.intMin 64 = Int64.minValue.toBitVec by decide]
    exact not_congr Int64.toBitVec_inj

theorem itoa_ltoa_isSigned_iff_hex :
    ∃ buf s, itoa (-48879) (fun _ => 0) 16 = some buf ∧ Holds buf s ∧ IsSigned 16 s (-48879) :=
  ((itoa_ltoa_isSigned_iff (fun _ => 0) 16 (by decide) (by decide)).1 (-48879)).mpr (by decide)

/-- What `itoa` writes for the smallest `int`, in base 10, is `-UVSPSOTQSO`. -/
theorem not_forall_itoa_isSigned :
    ¬ ∀ (value base : Int32) (str : ℕ → UInt8), 2 ≤ base.toInt → base.toInt ≤ 36 →
      ∃ buf s, itoa value str base = some buf ∧ Holds buf s ∧
        IsSigned base.toInt.toNat s value.toInt := by
  intro h
  have hmin := h Int32.minValue 10 (fun _ => 0) (by decide) (by decide)
  have hbase : 2 ≤ (10 : BitVec 32).toInt := by decide
  exact (formatSigned_isSigned_iff le_rfl (BitVec.intMin 32) (fun _ => 0) hbase (by decide)
    (minMisread 10 (by decide) (by decide)).1).mp hmin rfl

end Koerix.Itoa
