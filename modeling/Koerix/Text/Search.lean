import Koerix.Lib.WordScan

/-! # Searching memory word by word

`strlen` and `memchr` go byte by byte up to a word boundary and word by word from there, where
they read on behind the byte that they look for. They find what a search byte by byte finds, and
read from no word that such a search would not read from, so that they fault on no page that the
string does not touch.
-/

namespace Koerix.Search

open ByteMemory WordScan

/-- `*w`. -/
def loadWord (v : View) (w a : ℕ) : Option (BitVec (8 * w)) := (load v a w).map (.ofNat _)

/-- The first loop of `strlen`: up to a NUL, or to a word boundary. -/
def strlenHead (v : View) (w : ℕ) : ℕ → ℕ → Option (Bool × ℕ)
  | 0, _ => none
  | fuel + 1, s =>
    if s % w = 0 then some (false, s)
    else do if (← v s) = 0 then some (true, s) else strlenHead v w fuel (s + 1)

/-- The second loop: up to a word with a zero byte. -/
def strlenWords (v : View) (w : ℕ) : ℕ → ℕ → Option ℕ
  | 0, _ => none
  | fuel + 1, s => do if hasZero (← loadWord v w s) then some s else strlenWords v w fuel (s + w)

/-- The third loop: up to a NUL. -/
def strlenBytes (v : View) : ℕ → ℕ → Option ℕ
  | 0, _ => none
  | fuel + 1, s => do if (← v s) = 0 then some s else strlenBytes v fuel (s + 1)

/-- `strlen`, with words of `w` bytes; a read from an address that is not mapped is undefined. -/
def strlen (v : View) (w fuel a : ℕ) : Option ℕ := do
  let (found, s) ← strlenHead v w fuel a
  if found then return s - a
  let s ← strlenWords v w fuel s
  let s ← strlenBytes v fuel s
  return s - a

/-- The first loop of `memchr`. -/
def memchrHead (v : View) (w : ℕ) (c : UInt8) : (n : ℕ) → ℕ → Option (ℕ × ℕ)
  | 0, s => some (s, 0)
  | n + 1, s =>
    if s % w = 0 then some (s, n + 1)
    else do if (← v s) = c then some (s, n + 1) else memchrHead v w c n (s + 1)

/-- The second loop. The word is compared with `ONES * c` in all its bytes at once. -/
def memchrWords (v : View) (w : ℕ) (c : UInt8) : ℕ → (n : ℕ) → ℕ → Option (ℕ × ℕ)
  | 0, _, _ => none
  | fuel + 1, n, s =>
    if w ≤ n then do
      if hasZero ((← loadWord v w s) ^^^ (ones w * .ofNat _ c.toNat)) then some (s, n)
      else memchrWords v w c fuel (n - w) (s + w)
    else some (s, n)

/-- The second loop runs if there is something left and the first one has not found the byte. -/
def memchrMiddle (v : View) (w : ℕ) (c : UInt8) (n s : ℕ) : Option (ℕ × ℕ) :=
  if n = 0 then some (s, n)
  else do if (← v s) = c then some (s, n) else memchrWords v w c (n + 1) n s

/-- The third loop. -/
def memchrBytes (v : View) (c : UInt8) : (n : ℕ) → ℕ → Option (ℕ × ℕ)
  | 0, s => some (s, 0)
  | n + 1, s => do if (← v s) = c then some (s, n + 1) else memchrBytes v c n (s + 1)

/-- `memchr`; the inner option is the null pointer. -/
def memchr (v : View) (w src : ℕ) (c : UInt8) (n : ℕ) : Option (Option ℕ) := do
  let (s, n) ← memchrHead v w c n src
  let (s, n) ← memchrMiddle v w c n s
  let (s, n) ← memchrBytes v c n s
  return if n = 0 then none else some s

/-- `strnlen`. -/
def strnlen (v : View) (w s n : ℕ) : Option ℕ := do
  let p ← memchr v w s 0 n
  return match p with
    | some p => p - s
    | none => n

/-- Words at word boundaries are mapped as a whole or not at all, as pages are. -/
def WordMapped (v : View) (w : ℕ) : Prop := ∀ p q, p / w = q / w → v p ≠ none → v q ≠ none

/-- Every byte that a search byte by byte would read is mapped. -/
def Readable (v : View) (c : UInt8) (s n : ℕ) : Prop :=
  ∀ i < n, (∀ j < i, v (s + j) ≠ some c) → v (s + i) ≠ none

/-- A C string of the given length. -/
def IsString (v : View) (s n : ℕ) : Prop :=
  (∀ i < n, ∃ b ≠ 0, v (s + i) = some b) ∧ v (s + n) = some 0

/-- None of the first bytes is the one that is looked for. -/
def NoMatch (v : View) (c : UInt8) (s n : ℕ) : Prop := ∀ i < n, v (s + i) ≠ some c

variable {v : View} {w s n i k fuel : ℕ} {c : UInt8}

theorem loadWord_spec (hm : WordMapped v w) (hw : 0 < w) (ha : s % w = 0) (h : v s ≠ none) :
    ∃ x, loadWord v w s = some x ∧ ∀ i < w, v (s + i) = some (.ofNat (byte x.toNat i)) := by
  have hall : ∀ i < w, v (s + i) ≠ none := by
    intro i hi
    refine hm s (s + i) ?_ h
    obtain ⟨q, rfl⟩ := Nat.dvd_of_mod_eq_zero ha
    rw [Nat.mul_div_cancel_left _ hw, Nat.mul_add_div hw, Nat.div_eq_of_lt hi, Nat.add_zero]
  obtain ⟨x, hx, hload, hbytes⟩ := load_eq_some hall
  refine ⟨.ofNat _ x, by rw [loadWord, hload, Option.map_some], fun i hi => ?_⟩
  rw [BitVec.toNat_ofNat, pow_eight_mul, Nat.mod_eq_of_lt hx]
  exact hbytes i hi

theorem ofNat_byte_inj {x i : ℕ} : UInt8.ofNat (byte x i) = c ↔ byte x i = c.toNat := by
  have h := byte_lt x i
  rw [← UInt8.toNat_inj, UInt8.toNat_ofNat', Nat.mod_eq_of_lt h]

namespace IsString

theorem drop (h : IsString v s n) (hi : i ≤ n) : IsString v (s + i) (n - i) := by
  refine ⟨fun j hj => ?_, ?_⟩
  · rw [Nat.add_assoc]
    exact h.1 (i + j) (by omega)
  · rw [Nat.add_assoc, Nat.add_sub_cancel' hi]
    exact h.2

theorem ne_none (h : IsString v s n) : v s ≠ none := by
  cases n with
  | zero => exact Option.ne_none_iff_exists'.mpr ⟨0, h.2⟩
  | succ n =>
    obtain ⟨b, -, hb⟩ := h.1 0 n.succ_pos
    exact Option.ne_none_iff_exists'.mpr ⟨b, hb⟩

theorem head (h : IsString v s n) : (n = 0 ∧ v s = some 0) ∨ (0 < n ∧ ∃ b ≠ 0, v s = some b) := by
  cases n with
  | zero => exact .inl ⟨rfl, h.2⟩
  | succ n => exact .inr ⟨n.succ_pos, h.1 0 n.succ_pos⟩

end IsString

theorem strlenHead_spec (h : IsString v s n) (hf : n < fuel) :
    strlenHead v w fuel s = some (true, s + n) ∨
      ∃ i ≤ n, (s + i) % w = 0 ∧ strlenHead v w fuel s = some (false, s + i) := by
  induction fuel generalizing s n with
  | zero => omega
  | succ fuel ih =>
    rw [strlenHead]
    by_cases ha : s % w = 0
    · exact .inr ⟨0, n.zero_le, ha, if_pos ha⟩
    · rw [if_neg ha]
      obtain ⟨rfl, hb⟩ | ⟨hn, b, hne, hb⟩ := h.head
      · exact .inl (by rw [hb]; rfl)
      · simp only [hb, Option.bind_eq_bind, Option.bind_some, if_neg hne]
        obtain hfound | ⟨i, hi, hai, hstop⟩ := ih (h.drop hn) (by omega)
        · exact .inl (by rw [hfound, Nat.add_assoc, Nat.add_sub_cancel' hn])
        · refine .inr ⟨1 + i, by omega, ?_, ?_⟩
          · rwa [← Nat.add_assoc]
          · rw [hstop, Nat.add_assoc]

theorem strlenWords_spec (hm : WordMapped v w) (hw : 0 < w) (ha : s % w = 0) (h : IsString v s n)
    (hf : n < fuel) : ∃ i ≤ n, strlenWords v w fuel s = some (s + i) := by
  induction fuel generalizing s n with
  | zero => omega
  | succ fuel ih =>
    obtain ⟨x, hx, hbytes⟩ := loadWord_spec hm hw ha h.ne_none
    rw [strlenWords, hx, Option.bind_eq_bind, Option.bind_some]
    by_cases hz : hasZero x = true
    · exact ⟨0, n.zero_le, if_pos hz⟩
    · rw [if_neg hz]
      -- the string goes on behind a word without a zero byte
      have hwn : w ≤ n := by
        by_contra hlt
        refine hz ((hasZero_iff x).mpr ⟨n, by omega, ?_⟩)
        have hnul := h.2
        rw [hbytes n (by omega), Option.some_inj] at hnul
        exact ofNat_byte_inj.mp hnul
      obtain ⟨i, hi, hrec⟩ := ih (by rw [Nat.add_mod_right, ha]) (h.drop hwn) (by omega)
      exact ⟨w + i, by omega, by rw [hrec, Nat.add_assoc]⟩

theorem strlenBytes_spec (h : IsString v s n) (hf : n < fuel) :
    strlenBytes v fuel s = some (s + n) := by
  induction fuel generalizing s n with
  | zero => omega
  | succ fuel ih =>
    rw [strlenBytes]
    obtain ⟨rfl, hb⟩ | ⟨hn, b, hne, hb⟩ := h.head
    · rw [hb]
      rfl
    · rw [hb, Option.bind_eq_bind, Option.bind_some, if_neg hne, ih (h.drop hn) (by omega),
        Nat.add_assoc, Nat.add_sub_cancel' hn]

/-- `strlen` counts the bytes before the NUL, whatever the alignment of the string is. -/
theorem strlen_eq (hm : WordMapped v w) (hw : 0 < w) (h : IsString v s n) (hf : n < fuel) :
    strlen v w fuel s = some n := by
  rw [strlen]
  obtain hfound | ⟨i, hi, ha, hstop⟩ := strlenHead_spec (w := w) h hf
  · simp [hfound]
  · have hi' := h.drop hi
    obtain ⟨j, hj, hwords⟩ := strlenWords_spec hm hw ha hi' (by omega : n - i < fuel)
    have hbytes := strlenBytes_spec (hi'.drop hj) (by omega : n - i - j < fuel)
    simp only [hstop, hwords, hbytes, Option.bind_eq_bind, Option.bind_some, Option.pure_def,
      Bool.false_eq_true, if_false, Option.some_inj]
    omega

namespace NoMatch

theorem append (h : NoMatch v c s i) (h' : NoMatch v c (s + i) k) : NoMatch v c s (i + k) := by
  intro j hj
  by_cases hji : j < i
  · exact h j hji
  · have hrest := h' (j - i) (by omega)
    rwa [Nat.add_assoc, Nat.add_sub_cancel' (by omega)] at hrest

theorem one (h : v s ≠ some c) : NoMatch v c s 1 := by
  intro j hj
  obtain rfl : j = 0 := by omega
  exact h

end NoMatch

theorem Readable.drop (h : Readable v c s n) (hi : NoMatch v c s i) :
    Readable v c (s + i) (n - i) := by
  intro j hj hno
  rw [Nat.add_assoc]
  refine h (i + j) (by omega) (hi.append hno)

theorem Readable.exists (h : Readable v c s n) (hn : 0 < n) : ∃ b, v s = some b :=
  Option.ne_none_iff_exists'.mp (h 0 hn (by simp))

theorem memchrHead_spec (h : Readable v c s n) : ∃ i ≤ n, NoMatch v c s i ∧
    memchrHead v w c n s = some (s + i, n - i) ∧
      (i = n ∨ (s + i) % w = 0 ∨ v (s + i) = some c) := by
  induction n generalizing s with
  | zero => exact ⟨0, le_rfl, by simp [NoMatch], rfl, .inl rfl⟩
  | succ n ih =>
    rw [memchrHead]
    by_cases ha : s % w = 0
    · exact ⟨0, Nat.zero_le _, by simp [NoMatch], if_pos ha, .inr (.inl ha)⟩
    · obtain ⟨b, hb⟩ := h.exists n.succ_pos
      rw [if_neg ha, hb, Option.bind_eq_bind, Option.bind_some]
      by_cases hbc : b = c
      · exact ⟨0, Nat.zero_le _, by simp [NoMatch], if_pos hbc, .inr (.inr (hbc ▸ hb))⟩
      · have hone : NoMatch v c s 1 := .one (by simp [hb, hbc])
        obtain ⟨i, hi, hno, hrec, hstop⟩ := ih (h.drop hone)
        rw [Nat.add_assoc] at hrec hstop
        refine ⟨1 + i, by omega, hone.append hno, ?_, ?_⟩
        · rw [if_neg hbc, hrec, Nat.add_comm 1 i, Nat.add_sub_add_right]
        · exact hstop.imp_left (by omega)

theorem memchrWords_spec (hm : WordMapped v w) (hw : 0 < w) (ha : s % w = 0)
    (h : Readable v c s n) (hf : n < fuel) : ∃ i ≤ n, NoMatch v c s i ∧
      memchrWords v w c fuel n s = some (s + i, n - i) := by
  induction fuel generalizing s n with
  | zero => omega
  | succ fuel ih =>
    rw [memchrWords]
    by_cases hwn : w ≤ n
    · obtain ⟨b, hb⟩ := h.exists (hw.trans_le hwn)
      obtain ⟨x, hx, hbytes⟩ := loadWord_spec hm hw ha (by simp [hb])
      rw [if_pos hwn, hx, Option.bind_eq_bind, Option.bind_some]
      by_cases hz : hasZero (x ^^^ (ones w * .ofNat _ c.toNat)) = true
      · exact ⟨0, n.zero_le, by simp [NoMatch], if_pos hz⟩
      · have hno : NoMatch v c s w := by
          intro i hi hc
          rw [hbytes i hi, Option.some_inj] at hc
          exact hz ((hasZero_xor_iff x c).mpr ⟨i, hi, ofNat_byte_inj.mp hc⟩)
        obtain ⟨i, hi, hno', hrec⟩ := ih (by rw [Nat.add_mod_right, ha]) (h.drop hno) (by omega)
        refine ⟨w + i, by omega, hno.append hno', ?_⟩
        rw [if_neg hz, hrec, Nat.add_assoc, Nat.sub_add_eq]
    · exact ⟨0, n.zero_le, by simp [NoMatch], if_neg hwn⟩

theorem memchrBytes_spec (h : Readable v c s n) : ∃ i ≤ n, NoMatch v c s i ∧
    memchrBytes v c n s = some (s + i, n - i) ∧ (i < n → v (s + i) = some c) := by
  induction n generalizing s with
  | zero => exact ⟨0, le_rfl, by simp [NoMatch], rfl, by simp⟩
  | succ n ih =>
    obtain ⟨b, hb⟩ := h.exists n.succ_pos
    rw [memchrBytes, hb, Option.bind_eq_bind, Option.bind_some]
    by_cases hbc : b = c
    · exact ⟨0, Nat.zero_le _, by simp [NoMatch], if_pos hbc, fun _ => hbc ▸ hb⟩
    · have hone : NoMatch v c s 1 := .one (by simp [hb, hbc])
      obtain ⟨i, hi, hno, hrec, hfound⟩ := ih (h.drop hone)
      rw [Nat.add_assoc] at hrec hfound
      refine ⟨1 + i, by omega, hone.append hno, ?_, fun hlt => hfound (by omega)⟩
      rw [if_neg hbc, hrec, Nat.add_comm 1 i, Nat.add_sub_add_right]

theorem memchrMiddle_spec (hm : WordMapped v w) (hw : 0 < w) (h : Readable v c s n)
    (hstop : n = 0 ∨ s % w = 0 ∨ v s = some c) : ∃ i ≤ n, NoMatch v c s i ∧
      memchrMiddle v w c n s = some (s + i, n - i) := by
  rw [memchrMiddle]
  by_cases hn : n = 0
  · exact ⟨0, n.zero_le, by simp [NoMatch], if_pos hn⟩
  · obtain ⟨b, hb⟩ := h.exists (Nat.pos_of_ne_zero hn)
    rw [if_neg hn, hb, Option.bind_eq_bind, Option.bind_some]
    by_cases hbc : b = c
    · exact ⟨0, n.zero_le, by simp [NoMatch], if_pos hbc⟩
    · rw [if_neg hbc]
      have ha : s % w = 0 := by
        rcases hstop with h0 | ha | hc
        · exact absurd h0 hn
        · exact ha
        · exact absurd (Option.some_inj.mp (hb ▸ hc)) hbc
      exact memchrWords_spec hm hw ha h (Nat.lt_succ_self n)

/-- `memchr` stops at the first match or at the end. -/
theorem memchr_spec (hm : WordMapped v w) (hw : 0 < w) (h : Readable v c s n) :
    ∃ i ≤ n, NoMatch v c s i ∧ (i < n → v (s + i) = some c) ∧
      memchr v w s c n = some (if i = n then none else some (s + i)) := by
  obtain ⟨i, hi, hno, hhead, hstop⟩ := memchrHead_spec (w := w) h
  have hread := h.drop hno
  obtain ⟨j, hj, hno', hmiddle⟩ := memchrMiddle_spec hm hw hread (hstop.imp_left (by omega))
  obtain ⟨k, hk, hno'', hbytes, hfound⟩ := memchrBytes_spec (hread.drop hno')
  rw [Nat.add_assoc] at hno'' hbytes hfound
  refine ⟨i + j + k, by omega, (hno.append hno').append hno'', fun hlt => ?_, ?_⟩
  · rw [← hfound (by omega), Nat.add_assoc, Nat.add_assoc]
  · rw [memchr]
    simp only [hhead, hmiddle, hbytes, Option.bind_eq_bind, Option.bind_some, Option.pure_def,
      Nat.add_assoc]
    congr 2
    exact propext (by omega)

/-- `strnlen` is the length of a string, or the bound if it is not longer. Neither the string nor
the memory need go on up to the bound. -/
theorem strnlen_eq (hm : WordMapped v w) (hw : 0 < w) (h : IsString v s k) (n : ℕ) :
    strnlen v w s n = some (min k n) := by
  have hne : ∀ i < k, v (s + i) ≠ some 0 := by
    intro i hi h0
    obtain ⟨b, hne, hb⟩ := h.1 i hi
    exact hne (Option.some_inj.mp (hb ▸ h0))
  have hread : Readable v 0 s n := by
    intro i hi hno
    rcases Nat.lt_trichotomy i k with hlt | rfl | hgt
    · exact (h.drop hlt.le).ne_none
    · simp [h.2]
    · exact absurd h.2 (hno k hgt)
  obtain ⟨i, hi, hno, hfound, heq⟩ := memchr_spec hm hw hread
  rw [strnlen, heq, Option.bind_eq_bind, Option.bind_some, Option.pure_def, Option.some_inj]
  have hik : i ≤ k := by
    by_contra hlt
    exact hno k (by omega) h.2
  by_cases hin : i = n
  · rw [if_pos hin, ← hin, Nat.min_eq_right hik]
  · rw [if_neg hin]
    have hki : k ≤ i := by
      by_contra hlt
      exact hne i (by omega) (hfound (by omega))
    rw [Nat.min_eq_left (by omega), show i = k by omega]
    exact Nat.add_sub_cancel_left s k

/-- Both lengths of a string are those that a search byte by byte finds, at every alignment and
although the words that are read go on behind the NUL. -/
theorem strlen_strnlen_eq (hm : WordMapped v w) (hw : 0 < w) (h : IsString v s k) :
    (∀ fuel, k < fuel → strlen v w fuel s = some k) ∧ ∀ n, strnlen v w s n = some (min k n) :=
  ⟨fun _ hf => strlen_eq hm hw h hf, strnlen_eq hm hw h⟩

/-- Two words are mapped, and a string of three bytes ends at the beginning of the second one. -/
def twoWords : View := fun p => if p < 16 then some (if p < 8 then 97 else 0) else none

theorem wordMapped_twoWords : WordMapped twoWords 8 := by
  intro p q hpq hp
  rw [twoWords] at hp ⊢
  have hlt : p < 16 := by
    by_contra hge
    exact hp (if_neg hge)
  rw [if_pos (by omega)]
  exact Option.some_ne_none _

theorem isString_twoWords : IsString twoWords 5 3 := by
  refine ⟨fun i hi => ⟨97, by decide, ?_⟩, rfl⟩
  rw [twoWords, if_pos (by omega), if_pos (by omega)]

theorem strlen_strnlen_twoWords :
    strlen twoWords 8 4 5 = some 3 ∧ strnlen twoWords 8 5 100 = some 3 :=
  have h := strlen_strnlen_eq wordMapped_twoWords (by decide) isString_twoWords
  ⟨h.1 4 (by decide), h.2 100⟩

/-- `memchr` gives the first match, and null if and only if there is none. It faults nowhere if
no search byte by byte does. -/
theorem memchr_eq_some_iff (hm : WordMapped v w) (hw : 0 < w) (h : Readable v c s n) :
    (memchr v w s c n = some none ↔ NoMatch v c s n) ∧ ∀ p, memchr v w s c n = some (some p) ↔
      ∃ i < n, p = s + i ∧ v p = some c ∧ NoMatch v c s i := by
  obtain ⟨i, hi, hno, hfound, heq⟩ := memchr_spec hm hw h
  rw [heq]
  by_cases hin : i = n
  · subst hin
    rw [if_pos rfl]
    refine ⟨iff_of_true rfl hno, fun p => iff_of_false (by simp) ?_⟩
    rintro ⟨k, hk, rfl, hc, -⟩
    exact hno k hk hc
  · rw [if_neg hin]
    have hc := hfound (by omega)
    refine ⟨iff_of_false (by simp) fun hall => hall i (by omega) hc, fun p => ?_⟩
    rw [Option.some_inj, Option.some_inj]
    constructor
    · rintro rfl
      exact ⟨i, by omega, rfl, hc, hno⟩
    · rintro ⟨k, hk, rfl, hck, hnok⟩
      rcases Nat.lt_trichotomy i k with hlt | rfl | hgt
      · exact absurd hc (hnok i hlt)
      · rfl
      · exact absurd hck (hno k hgt)

theorem memchr_twoWords : memchr twoWords 8 2 0 1000 = some (some 8) :=
  ((memchr_eq_some_iff wordMapped_twoWords (by decide) (by
    intro i _ hno
    have hle : i ≤ 6 := by
      by_contra hlt
      exact hno 6 (by omega) rfl
    rw [twoWords, if_pos (by omega)]
    exact Option.some_ne_none _)).2 8).mpr ⟨6, by decide, rfl, rfl, by
      intro j hj
      rw [twoWords, if_pos (by omega), if_pos (by omega)]
      decide⟩

end Koerix.Search
