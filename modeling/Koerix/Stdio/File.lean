import Mathlib.Algebra.Group.Nat.Defs
import Mathlib.Data.Int.Notation
import Mathlib.Data.List.TakeDrop
import Koerix.Lib.Run

/-! # Output streams

`putc`, `fwrite` and `fflush` over any `write` function of a stream. What such a function has to
do is stated once: pass on what is buffered and then what it is given, or fail and drop what it
has not passed on. Over every one that does, a stream passes on what is put into it, in order and
without gaps, up to the first call that reports a failure.
-/

namespace Koerix.Stdio

/-- `FILE`. Pointers into the buffer are offsets. -/
structure File where
  /-- `F_ERR` -/
  err : Bool
  /-- `F_EOF` -/
  eof : Bool
  /-- `F_NORD` -/
  noRead : Bool
  /-- `F_NOWR` -/
  noWrite : Bool
  /-- `F_SVB` -/
  svb : Bool
  mode : Int32
  bufSize : ℕ
  /-- The line end after which a stream is flushed; `none` is `EOF`. -/
  lbf : Option UInt8
  /-- What lies between `wbase` and `wpos`; `none` if `wbase`, `wpos` and `wend` are null. Otherwise
  `wbase` is `buf` and `wend` is the end of the buffer. -/
  pending : Option (List UInt8)
  /-- The memory from `buf - UNGET` on. -/
  mem : List UInt8
  /-- The offsets in `mem` of `rpos` and `rend`, zero for null. -/
  rpos : ℕ
  rend : ℕ

/-- A `write` function: the stream, what is behind it, and the bytes; the number of bytes that it
returns. It need not return. -/
abbrev WriteFn (ε : Type) := File → ε → List UInt8 → Option (File × ε × ℕ)

namespace File

/-- `f->mode |= f->mode - 1`. -/
def orient (f : File) : File := { f with mode := f.mode ||| (f.mode - 1) }

/-- `wpos == wend`. -/
def atEnd (f : File) : Bool :=
  match f.pending with
  | none => true
  | some p => p.length = f.bufSize

/-- `wend - wpos`. -/
def room (f : File) : ℕ :=
  match f.pending with
  | none => 0
  | some p => f.bufSize - p.length

/-- Bytes are stored at `wpos`, which moves on. -/
def store (f : File) (s : List UInt8) : File := { f with pending := f.pending.map (· ++ s) }

/-- `__towrite`; whether it returns `EOF`. -/
def towrite (f : File) : File × Bool :=
  let f := f.orient
  if f.noWrite then ({ f with err := true }, true)
  else ({ f with rpos := 0, rend := 0, pending := some [] }, false)

/-- `!f->wend && __towrite(f)`. -/
def ensureWrite (f : File) : File × Bool := if f.pending.isNone then f.towrite else (f, false)

end File

section

variable {ε : Type} (write : WriteFn ε)

/-- `__overflow`; `none` stands for `EOF`. -/
def overflow (f : File) (e : ε) (c : UInt8) : Option (File × ε × Option UInt8) :=
  let (f, eof) := f.ensureWrite
  if eof then some (f, e, none)
  else if f.atEnd = false ∧ f.lbf ≠ some c then some (f.store [c], e, some c)
  else do
    let (f, e, k) ← write f e [c]
    return (f, e, if k = 1 then some c else none)

/-- `putc_unlocked`. -/
def putc (f : File) (e : ε) (c : UInt8) : Option (File × ε × Option UInt8) :=
  if f.lbf ≠ some c ∧ f.atEnd = false then some (f.store [c], e, some c) else overflow write f e c

/-- The number of bytes up to the last newline. -/
def lines (s : List UInt8) : ℕ := (s.reverse.dropWhile (· ≠ 10)).length

/-- `__fwritex`. -/
def fwritex (f : File) (e : ε) (s : List UInt8) : Option (File × ε × ℕ) :=
  let (f, eof) := f.ensureWrite
  if eof then some (f, e, 0)
  else if f.room < s.length then write f e s
  else
    let i := if f.lbf.isSome then lines s else 0
    if i = 0 then some (f.store s, e, s.length)
    else do
      let (f, e, n) ← write f e (s.take i)
      if n < i then return (f, e, n)
      else return (f.store (s.drop i), e, s.length)

/-- `fwrite`: the number of items that have been written. -/
def fwrite (f : File) (e : ε) (size nmemb : ℕ) (src : Vector UInt8 (size * nmemb)) :
    Option (File × ε × ℕ) := do
  let (f, e, k) ← fwritex write f e src.toList
  return (f, e, if k = size * nmemb then (if size = 0 then 0 else nmemb) else k / size)

/-- The end of `fflush`. -/
def File.sync (seek : ε → ℤ → ε) (f : File) (e : ε) : File × ε :=
  ({ f with pending := none, rpos := 0, rend := 0 },
    if f.rpos = f.rend then e else seek e ((f.rpos : ℤ) - f.rend))

/-- `fflush`; whether it returns zero. -/
def fflush (seek : ε → ℤ → ε) (f : File) (e : ε) : Option (File × ε × Bool) :=
  if f.pending.getD [] = [] then
    let (f, e) := f.sync seek e
    some (f, e, true)
  else do
    let (f, e, _) ← write f e []
    if f.pending.isNone then return (f, e, false)
    else
      let (f, e) := f.sync seek e
      return (f, e, true)

/-- `close_file`, which the end of a program calls for every stream. -/
def closeFile (seek : ε → ℤ → ε) (f : File) (e : ε) : Option (File × ε) := do
  let (f, e) ← if f.pending.getD [] = [] then some (f, e)
    else (write f e []).map fun r => (r.1, r.2.1)
  return (f, if f.rpos = f.rend then e else seek e ((f.rpos : ℤ) - f.rend))

end

/-- The calls that put bytes into a stream. -/
inductive Call
  | putc (c : UInt8)
  | fwrite (size nmemb : ℕ) (src : Vector UInt8 (size * nmemb))
  | fflush

/-- The bytes that a call puts into the stream. -/
def Call.bytes : Call → List UInt8
  | .putc c => [c]
  | .fwrite _ _ src => src.toList
  | .fflush => []

/-- A call, and whether it reports that it has done all of its work. -/
def step {ε : Type} (write : WriteFn ε) (seek : ε → ℤ → ε) (s : File × ε) :
    Call → Option ((File × ε) × Bool)
  | .putc c => (putc write s.1 s.2 c).map fun r => ((r.1, r.2.1), r.2.2.isSome)
  | .fwrite size nmemb src => (fwrite write s.1 s.2 size nmemb src).map fun r =>
      ((r.1, r.2.1), r.2.2 = if size = 0 then 0 else nmemb)
  | .fflush => (fflush write seek s.1 s.2).map fun r => ((r.1, r.2.1), r.2.2)

/-- A stream stays the same but for its contents, its errors, and the line end, which it may
lose. -/
structure Frame (f f' : File) : Prop where
  bufSize : f'.bufSize = f.bufSize
  noWrite : f'.noWrite = f.noWrite
  lbf : f'.lbf = f.lbf ∨ f'.lbf = none

section

variable {ε : Type} (Sent : ε → List UInt8 → Prop)

/-- A call has failed: of what has been put into the stream, a first part is sent, and with it
`k` bytes of the call; the rest is lost. -/
def Lost (f' : File) (e' : ε) (put s : List UInt8) (k : ℕ) : Prop :=
  f'.err = true ∧ f'.pending = none ∧ ∃ m ≤ (put ++ s).length,
    Sent e' ((put ++ s).take m) ∧ k = m - put.length ∧ (s ≠ [] → k < s.length)

/-- A `write` function passes on what is buffered and what it is given, or fails. -/
def Sink (write : WriteFn ε) : Prop :=
  ∀ f e p s f' e' k l, f.pending = some p → Sent e l → write f e s = some (f', e', k) →
    Frame f f' ∧
    (f'.err = f.err ∧ f'.pending = some [] ∧ k = s.length ∧ Sent e' (l ++ p ++ s) ∨
      Lost Sent f' e' (l ++ p) s k)

/-- What has been put into a stream is sent or still in its buffer, where no complete line of a
line-buffered stream is. -/
structure Keeps (f : File) (e : ε) (put : List UInt8) : Prop where
  canWrite : f.noWrite = false
  sent : ∃ l, Sent e l ∧ l ++ f.pending.getD [] = put
  fits : (f.pending.getD []).length ≤ f.bufSize
  line : ∀ c, f.lbf = some c → c = 10 ∧ 10 ∉ f.pending.getD []

/-- After a call that puts `s` into the stream and takes `k` bytes of it. -/
def Outcome (f f' : File) (e' : ε) (put s : List UInt8) (k : ℕ) : Prop :=
  f'.err = f.err ∧ f'.bufSize = f.bufSize ∧ k = s.length ∧ Keeps Sent f' e' (put ++ s) ∨
    Lost Sent f' e' put s k

variable {Sent} {write : WriteFn ε} {f f' : File} {e e' : ε} {put s p l : List UInt8} {k : ℕ}
  {c : UInt8}

namespace Keeps

theorem ensureWrite (h : Keeps Sent f e put) : ∃ f₁ p, f.ensureWrite = (f₁, false) ∧
    f₁.pending = some p ∧ f₁.err = f.err ∧ f₁.bufSize = f.bufSize ∧ Keeps Sent f₁ e put := by
  obtain ⟨hw, hsent, hfits, hline⟩ := h
  cases hp : f.pending with
  | none =>
    rw [hp] at hsent hfits hline
    refine ⟨{ f.orient with rpos := 0, rend := 0, pending := some [] }, [], ?_, rfl, rfl,
      rfl, ⟨hw, hsent, hfits, hline⟩⟩
    simp [File.ensureWrite, hp, File.towrite, File.orient, hw]
  | some p => exact ⟨f, p, by simp [File.ensureWrite, hp], hp, rfl, rfl, hw, hsent, hfits, hline⟩

theorem store (h : Keeps Sent f e put) (hp : f.pending = some p)
    (hroom : p.length + s.length ≤ f.bufSize) (hs : f.lbf ≠ none → 10 ∉ s) :
    Keeps Sent (f.store s) e (put ++ s) := by
  obtain ⟨hw, ⟨l, hl, hput⟩, -, hline⟩ := h
  rw [hp] at hput hline
  refine ⟨hw, ⟨l, hl, ?_⟩, ?_, fun c hc => ?_⟩
  · simp only [File.store, hp, Option.map_some, Option.getD_some] at hput ⊢
    rw [← List.append_assoc, hput]
  · simpa [File.store, hp] using hroom
  · obtain ⟨rfl, hno⟩ := hline c hc
    have hs' := hs (by rw [show f.lbf = some 10 from hc]; simp)
    refine ⟨rfl, ?_⟩
    simp only [File.store, hp, Option.map_some, Option.getD_some, List.mem_append, not_or]
    exact ⟨hno, hs'⟩

theorem of_sent (h : Keeps Sent f e put) (hf : Frame f f') (hp : f'.pending = some [])
    (hs : Sent e' l) : Keeps Sent f' e' l where
  canWrite := hf.noWrite.trans h.canWrite
  sent := ⟨l, hs, by simp [hp]⟩
  fits := by simp [hp]
  line c hc := by
    rcases hf.lbf with he | he
    · exact ⟨(h.line c (he ▸ hc)).1, by simp [hp]⟩
    · rw [he] at hc
      exact absurd hc nofun

end Keeps

theorem Sink.write_spec (hsink : Sink Sent write) (h : Keeps Sent f e put)
    (hp : f.pending = some p) (hw : write f e s = some (f', e', k)) : Frame f f' ∧
      (f'.err = f.err ∧ f'.pending = some [] ∧ k = s.length ∧ Keeps Sent f' e' (put ++ s) ∨
        Lost Sent f' e' put s k) := by
  obtain ⟨l, hl, hput⟩ := h.sent
  rw [hp, Option.getD_some] at hput
  obtain ⟨hf, ⟨herr, hnil, hk, hs⟩ | hlost⟩ := hsink f e p s f' e' k l hp hl hw
  · rw [hput] at hs
    exact ⟨hf, .inl ⟨herr, hnil, hk, h.of_sent hf hnil hs⟩⟩
  · rw [hput] at hlost
    exact ⟨hf, .inr hlost⟩

theorem Sink.write_outcome (hsink : Sink Sent write) (h : Keeps Sent f e put)
    (hp : f.pending = some p) (hw : write f e s = some (f', e', k)) :
    Outcome Sent f f' e' put s k := by
  obtain ⟨hf, ⟨herr, -, hk, hkeep⟩ | hlost⟩ := hsink.write_spec h hp hw
  · exact .inl ⟨herr, hf.bufSize, hk, hkeep⟩
  · exact .inr hlost

theorem lines_le (s : List UInt8) : lines s ≤ s.length := by
  have hle : lines s ≤ s.reverse.length := (List.dropWhile_sublist _).length_le
  rwa [List.length_reverse] at hle

theorem newline_notMem_drop_lines (s : List UInt8) : 10 ∉ s.drop (lines s) := by
  have hs : s = (s.reverse.dropWhile (· ≠ (10 : UInt8))).reverse ++
      (s.reverse.takeWhile (· ≠ (10 : UInt8))).reverse := by
    rw [← List.reverse_append, List.takeWhile_append_dropWhile, List.reverse_reverse]
  have hdrop : s.drop (lines s) = (s.reverse.takeWhile (· ≠ (10 : UInt8))).reverse := by
    nth_rewrite 2 [hs]
    rw [List.drop_left' (by rw [List.length_reverse, lines])]
  rw [hdrop, List.mem_reverse]
  intro hmem
  exact absurd (List.all_eq_true.mp List.all_takeWhile 10 hmem) (by decide)

theorem atEnd_eq (hp : f.pending = some p) : f.atEnd = decide (p.length = f.bufSize) := by
  simp [File.atEnd, hp]

theorem room_eq (hp : f.pending = some p) : f.room = f.bufSize - p.length := by
  simp [File.room, hp]

theorem Keeps.store_byte (h : Keeps Sent f e put) (hend : f.atEnd = false)
    (hc : f.lbf ≠ some c) : Keeps Sent (f.store [c]) e (put ++ [c]) := by
  have hfits := h.fits
  cases hp : f.pending with
  | none => simp [File.atEnd, hp] at hend
  | some p =>
    rw [atEnd_eq hp, decide_eq_false_iff_not] at hend
    rw [hp, Option.getD_some] at hfits
    refine h.store hp ?_ fun hne hmem => ?_
    · rw [List.length_singleton]
      omega
    · obtain ⟨d, hd⟩ := Option.ne_none_iff_exists'.mp hne
      rw [List.mem_singleton] at hmem
      exact hc (by rw [hd, (h.line d hd).1, hmem])

theorem overflow_outcome (hsink : Sink Sent write) (h : Keeps Sent f e put) {r : Option UInt8}
    (hr : overflow write f e c = some (f', e', r)) :
    ∃ k, Outcome Sent f f' e' put [c] k ∧ r.isSome = decide (k = 1) := by
  obtain ⟨f₁, p, heq, hp, herr, hsize, hk⟩ := h.ensureWrite
  simp only [overflow, heq, Bool.false_eq_true, if_false] at hr
  split_ifs at hr with hroom
  · simp only [Option.some.injEq, Prod.mk.injEq] at hr
    obtain ⟨rfl, rfl, rfl⟩ := hr
    exact ⟨1, .inl ⟨herr, hsize, rfl, hk.store_byte hroom.1 hroom.2⟩, rfl⟩
  · obtain ⟨⟨f₂, e₂, k⟩, hw, hr⟩ := Option.bind_eq_some_iff.mp hr
    simp only [Option.pure_def, Option.some.injEq, Prod.mk.injEq] at hr
    obtain ⟨rfl, rfl, rfl⟩ := hr
    have hout := hsink.write_outcome hk hp hw
    rw [Outcome, herr, hsize] at hout
    refine ⟨k, hout, ?_⟩
    split_ifs with hk1 <;> simp [hk1]

theorem putc_outcome (hsink : Sink Sent write) (h : Keeps Sent f e put) {r : Option UInt8}
    (hr : putc write f e c = some (f', e', r)) :
    ∃ k, Outcome Sent f f' e' put [c] k ∧ r.isSome = decide (k = 1) := by
  rw [putc] at hr
  split_ifs at hr with hroom
  · simp only [Option.some.injEq, Prod.mk.injEq] at hr
    obtain ⟨rfl, rfl, rfl⟩ := hr
    exact ⟨1, .inl ⟨rfl, rfl, rfl, h.store_byte hroom.2 hroom.1⟩, rfl⟩
  · exact overflow_outcome hsink h hr

theorem Lost.of_take {i : ℕ} (h : Lost Sent f' e' put (s.take i) k) (hk : k < i)
    (hi : i ≤ s.length) :
    Lost Sent f' e' put s k := by
  obtain ⟨herr, hnone, m, hm, hs, hkm, -⟩ := h
  have htake : (s.take i).length = i := List.length_take_of_le hi
  rw [List.length_append, htake] at hm
  refine ⟨herr, hnone, m, by rw [List.length_append]; omega, ?_, hkm, fun _ => by omega⟩
  rw [List.take_append, List.take_take, Nat.min_eq_left (by omega)] at hs
  rwa [List.take_append]

theorem fwritex_outcome (hsink : Sink Sent write) (h : Keeps Sent f e put)
    (hr : fwritex write f e s = some (f', e', k)) : Outcome Sent f f' e' put s k := by
  obtain ⟨f₁, p, heq, hp, herr, hsize, hk⟩ := h.ensureWrite
  have hfits := hk.fits
  rw [hp, Option.getD_some] at hfits
  simp only [fwritex, heq, Bool.false_eq_true, if_false] at hr
  rw [Outcome, ← herr, ← hsize]
  by_cases hroom : f₁.room < s.length
  · rw [if_pos hroom] at hr
    exact hsink.write_outcome hk hp hr
  · rw [if_neg hroom] at hr
    rw [room_eq hp] at hroom
    obtain ⟨i, hi⟩ : ∃ i, i = if f₁.lbf.isSome then lines s else 0 := ⟨_, rfl⟩
    rw [← hi] at hr
    -- no newline is left behind the lines that are written at once
    have hdrop : f₁.lbf ≠ none → 10 ∉ s.drop i := by
      intro hne
      rw [if_pos (Option.isSome_iff_ne_none.mpr hne)] at hi
      exact hi ▸ newline_notMem_drop_lines s
    have hile : i ≤ s.length := by
      rw [hi]
      split_ifs
      · exact lines_le s
      · exact Nat.zero_le _
    by_cases hi0 : i = 0
    · rw [if_pos hi0] at hr
      simp only [Option.some.injEq, Prod.mk.injEq] at hr
      obtain ⟨rfl, rfl, rfl⟩ := hr
      refine .inl ⟨rfl, rfl, rfl, hk.store hp (by omega) fun hne => ?_⟩
      simpa [hi0] using hdrop hne
    · rw [if_neg hi0] at hr
      obtain ⟨⟨f₂, e₂, n⟩, hw, hr⟩ := Option.bind_eq_some_iff.mp hr
      have htake : (s.take i).length = i := List.length_take_of_le hile
      obtain ⟨hf, ⟨herr₂, hnil, hn, hk₂⟩ | hlost⟩ := hsink.write_spec hk hp hw
      · have hnot : ¬ n < i := by omega
        simp only [hnot, if_false, Option.pure_def, Option.some.injEq, Prod.mk.injEq] at hr
        obtain ⟨rfl, rfl, rfl⟩ := hr
        refine .inl ⟨herr₂, hf.bufSize, rfl, ?_⟩
        have hstore := hk₂.store hnil (s := s.drop i) ?_ fun hne => hdrop fun h0 => ?_
        · rwa [List.append_assoc, List.take_append_drop] at hstore
        · rw [hf.bufSize, List.length_drop, List.length_nil]
          omega
        · rcases hf.lbf with he | he
          · exact hne (he.trans h0)
          · exact hne he
      · have hn : n < i := by
          have hlt := hlost.2.2.choose_spec.2.2.2 fun h0 =>
            hi0 (by rw [← htake, h0, List.length_nil])
          rwa [htake] at hlt
        simp only [hn, if_true, Option.pure_def, Option.some.injEq, Prod.mk.injEq] at hr
        obtain ⟨rfl, rfl, rfl⟩ := hr
        exact .inr (hlost.of_take hn hile)

theorem Keeps.sync {seek : ε → ℤ → ε} (h : Keeps Sent f e put) (hp : f.pending.getD [] = [])
    (hseek : ∀ e i l, Sent e l → Sent (seek e i) l) :
    Keeps Sent (f.sync seek e).1 (f.sync seek e).2 put := by
  obtain ⟨l, hl, hput⟩ := h.sent
  rw [hp, List.append_nil] at hput
  refine ⟨h.canWrite, ⟨l, ?_, by simp [File.sync, hput]⟩, by simp [File.sync], fun c hc => ?_⟩
  · simp only [File.sync]
    split_ifs
    · exact hl
    · exact hseek _ _ _ hl
  · exact ⟨(h.line c hc).1, by simp [File.sync]⟩

theorem fflush_outcome (hsink : Sink Sent write) {seek : ε → ℤ → ε}
    (hseek : ∀ e i l, Sent e l → Sent (seek e i) l) (h : Keeps Sent f e put) {b : Bool}
    (hr : fflush write seek f e = some (f', e', b)) :
    (b = true ∧ f'.err = f.err ∧ f'.bufSize = f.bufSize ∧ Keeps Sent f' e' put) ∨
      b = false ∧ Lost Sent f' e' put [] 0 := by
  rw [fflush] at hr
  split_ifs at hr with hnil
  · simp only [Option.some.injEq, Prod.mk.injEq] at hr
    obtain ⟨rfl, rfl, rfl⟩ := hr
    exact .inl ⟨rfl, rfl, rfl, h.sync hnil hseek⟩
  · obtain ⟨⟨f₁, e₁, k⟩, hw, hr⟩ := Option.bind_eq_some_iff.mp hr
    obtain ⟨p, hp⟩ : ∃ p, f.pending = some p := by
      cases hp : f.pending with
      | none => exact absurd (by rw [hp]; rfl) hnil
      | some p => exact ⟨p, rfl⟩
    obtain ⟨hf, ⟨herr, hnil₁, -, hk⟩ | hlost⟩ := hsink.write_spec h hp hw
    · simp only [hnil₁, Option.isNone_some, Bool.false_eq_true, if_false, Option.pure_def,
        Option.some.injEq, Prod.mk.injEq] at hr
      obtain ⟨rfl, rfl, rfl⟩ := hr
      rw [List.append_nil] at hk
      exact .inl ⟨rfl, herr, hf.bufSize, hk.sync (by rw [hnil₁]; rfl) hseek⟩
    · simp only [hlost.2.1, Option.isNone_none, if_true, Option.pure_def, Option.some.injEq,
        Prod.mk.injEq] at hr
      obtain ⟨rfl, rfl, rfl⟩ := hr
      obtain ⟨herr, hnone, m, hm, hs, -, -⟩ := hlost
      refine .inr ⟨rfl, herr, hnone, m, hm, hs, ?_, fun h0 => absurd rfl h0⟩
      rw [List.append_nil] at hm
      omega

theorem fwritex_nil (h : Keeps Sent f e put) (hr : fwritex write f e [] = some (f', e', k)) :
    k = 0 ∧ f'.err = f.err ∧ f'.bufSize = f.bufSize ∧ Keeps Sent f' e' put := by
  obtain ⟨f₁, p, heq, hp, herr, hsize, hk⟩ := h.ensureWrite
  have hfits := hk.fits
  rw [hp, Option.getD_some] at hfits
  have hlines : (if f₁.lbf.isSome then lines [] else 0) = 0 := by
    split_ifs <;> rfl
  simp only [fwritex, heq, Bool.false_eq_true, if_false, List.length_nil, Nat.not_lt_zero,
    hlines, if_true, Option.some.injEq, Prod.mk.injEq] at hr
  obtain ⟨rfl, rfl, rfl⟩ := hr
  have hstore := hk.store hp (s := []) (by simpa using hfits) fun _ => List.not_mem_nil
  rw [List.append_nil] at hstore
  exact ⟨rfl, herr, hsize, hstore⟩

/-- A call puts its bytes into the stream, or reports a failure. -/
theorem step_outcome (hsink : Sink Sent write) {seek : ε → ℤ → ε}
    (hseek : ∀ e i l, Sent e l → Sent (seek e i) l) (h : Keeps Sent f e put) {call : Call}
    {b : Bool} (hr : step write seek (f, e) call = some ((f', e'), b)) :
    (b = true ∧ f'.err = f.err ∧ f'.bufSize = f.bufSize ∧ Keeps Sent f' e' (put ++ call.bytes)) ∨
      b = false ∧ ∃ k, Lost Sent f' e' put call.bytes k := by
  cases call with
  | putc c =>
    obtain ⟨⟨f₁, e₁, r⟩, hputc, hr⟩ := Option.map_eq_some_iff.mp hr
    simp only [Prod.mk.injEq] at hr
    obtain ⟨⟨rfl, rfl⟩, rfl⟩ := hr
    obtain ⟨k, ⟨herr, hsize, rfl, hk⟩ | hlost, hb⟩ := putc_outcome hsink h hputc
    · exact .inl ⟨hb, herr, hsize, hk⟩
    · have hlt := hlost.2.2.choose_spec.2.2.2 (List.cons_ne_nil c [])
      rw [List.length_singleton] at hlt
      exact .inr ⟨hb.trans (decide_eq_false (by omega)), k, hlost⟩
  | fwrite size nmemb src =>
    obtain ⟨⟨f₁, e₁, r⟩, hfwrite, hr⟩ := Option.map_eq_some_iff.mp hr
    obtain ⟨⟨f₂, e₂, k⟩, hw, hfwrite⟩ := Option.bind_eq_some_iff.mp hfwrite
    simp only [Option.pure_def, Option.some.injEq, Prod.mk.injEq] at hfwrite hr
    obtain ⟨rfl, rfl, rfl⟩ := hfwrite
    obtain ⟨⟨rfl, rfl⟩, rfl⟩ := hr
    have hlen : src.toList.length = size * nmemb := src.length_toList
    by_cases hnil : src.toList = []
    · rw [hnil] at hw hlen
      obtain ⟨rfl, herr, hsize, hk⟩ := fwritex_nil h hw
      rw [List.length_nil] at hlen
      refine .inl ⟨by simp [hlen.symm], herr, hsize, ?_⟩
      rwa [Call.bytes, hnil, List.append_nil]
    · obtain ⟨herr, hsize, hk, hkeep⟩ | hlost := fwritex_outcome hsink h hw
      · exact .inl ⟨by simp [hk, hlen], herr, hsize, hkeep⟩
      · have hlt := hlost.2.2.choose_spec.2.2.2 hnil
        rw [hlen] at hlt
        have hsize0 : size ≠ 0 := by
          rintro rfl
          omega
        have hdiv : k / size < nmemb := Nat.div_lt_of_lt_mul hlt
        refine .inr ⟨?_, k, hlost⟩
        rw [if_neg (by omega), if_neg hsize0]
        exact decide_eq_false (Nat.ne_of_lt hdiv)
  | fflush =>
    obtain ⟨⟨f₁, e₁, b₁⟩, hflush, hr⟩ := Option.map_eq_some_iff.mp hr
    simp only [Prod.mk.injEq] at hr
    obtain ⟨⟨rfl, rfl⟩, rfl⟩ := hr
    rw [Call.bytes, List.append_nil]
    obtain ⟨hb, herr, hsize, hk⟩ | ⟨hb, hlost⟩ := fflush_outcome hsink hseek h hflush
    · exact .inl ⟨hb, herr, hsize, hk⟩
    · exact .inr ⟨hb, 0, hlost⟩

theorem run_keeps (hsink : Sink Sent write) {seek : ε → ℤ → ε}
    (hseek : ∀ e i l, Sent e l → Sent (seek e i) l) (h : Keeps Sent f e put) {calls : List Call}
    {bs : List Bool} (hr : Run.outputs (step write seek) (f, e) calls = some ((f', e'), bs))
    (hb : ∀ b ∈ bs, b = true) : f'.err = f.err ∧ f'.bufSize = f.bufSize ∧
      Keeps Sent f' e' (put ++ calls.flatMap Call.bytes) := by
  induction calls generalizing f e put bs with
  | nil =>
    simp only [Run.outputs, Option.some.injEq, Prod.mk.injEq] at hr
    obtain ⟨⟨rfl, rfl⟩, rfl⟩ := hr
    exact ⟨rfl, rfl, by simpa using h⟩
  | cons call calls ih =>
    obtain ⟨⟨f₁, e₁⟩, b, bs', hstep, hrest, rfl⟩ := Run.outputs_cons_eq_some hr
    obtain ⟨-, herr, hsize, hk⟩ | ⟨rfl, -⟩ := step_outcome hsink hseek h hstep
    · obtain ⟨herr', hsize', hk'⟩ := ih hk hrest fun b hb' => hb b (List.mem_cons_of_mem _ hb')
      rw [List.flatMap_cons, ← List.append_assoc]
      exact ⟨herr'.trans herr, hsize'.trans hsize, hk'⟩
    · exact absurd (hb false List.mem_cons_self) Bool.false_ne_true

/-- When a call is the first to report a failure, a first part of what has been put into the
stream is sent. -/
theorem run_lost (hsink : Sink Sent write) {seek : ε → ℤ → ε}
    (hseek : ∀ e i l, Sent e l → Sent (seek e i) l) (h : Keeps Sent f e put) {calls : List Call}
    {bs : List Bool}
    (hr : Run.outputs (step write seek) (f, e) calls = some ((f', e'), bs ++ [false]))
    (hb : ∀ b ∈ bs, b = true) :
    f'.err = true ∧ ∃ l, l <+: put ++ calls.flatMap Call.bytes ∧ Sent e' l := by
  induction calls generalizing f e put bs with
  | nil =>
    simp only [Run.outputs, Option.some.injEq, Prod.mk.injEq] at hr
    exact absurd hr.2 (by simp)
  | cons call calls ih =>
    obtain ⟨⟨f₁, e₁⟩, b, bs', hstep, hrest, hbs⟩ := Run.outputs_cons_eq_some hr
    obtain ⟨rfl, -, -, hk⟩ | ⟨rfl, k, herr, -, m, -, hs, -⟩ := step_outcome hsink hseek h hstep
    · cases bs with
      | nil => exact absurd (List.cons.inj hbs).1 (by decide)
      | cons b bs =>
        obtain ⟨-, rfl⟩ := List.cons.inj hbs
        obtain ⟨herr, l, hl, hs⟩ := ih hk hrest fun b hb' => hb b (List.mem_cons_of_mem _ hb')
        rw [List.flatMap_cons, ← List.append_assoc]
        exact ⟨herr, l, hl, hs⟩
    · -- the failure is the last answer, so that the run ends here
      cases bs with
      | cons b bs =>
        have hfalse := hb b List.mem_cons_self
        rw [(List.cons.inj hbs).1] at hfalse
        exact absurd hfalse Bool.false_ne_true
      | nil =>
        obtain ⟨-, rfl⟩ := List.cons.inj hbs
        cases calls with
        | nil =>
          simp only [Run.outputs, Option.some.injEq, Prod.mk.injEq] at hrest
          obtain ⟨⟨rfl, rfl⟩, -⟩ := hrest
          refine ⟨herr, _, ?_, hs⟩
          simpa using List.take_prefix m (put ++ call.bytes)
        | cons call' calls =>
          obtain ⟨s, b, bs', -, -, hbs'⟩ := Run.outputs_cons_eq_some hrest
          exact absurd hbs' (by rintro ⟨⟩)

/-- A `write` function returns if it has less than `N` bytes to pass on. -/
def Returns (write : WriteFn ε) (N : ℕ) : Prop := ∀ f e s p, f.pending = some p →
  p.length + s.length < N → ∃ r, write f e s = some r

theorem fwritex_exists {N : ℕ} (hret : Returns write N) (h : Keeps Sent f e put)
    (hN : f.bufSize + s.length < N) : ∃ r, fwritex write f e s = some r := by
  obtain ⟨f₁, p, heq, hp, -, hsize, hk⟩ := h.ensureWrite
  have hfits := hk.fits
  rw [hp, Option.getD_some] at hfits
  simp only [fwritex, heq, Bool.false_eq_true, if_false]
  by_cases hroom : f₁.room < s.length
  · rw [if_pos hroom]
    exact hret f₁ e s p hp (by omega)
  · rw [if_neg hroom]
    obtain ⟨i, hi⟩ : ∃ i, i = if f₁.lbf.isSome then lines s else 0 := ⟨_, rfl⟩
    rw [← hi]
    by_cases hi0 : i = 0
    · exact ⟨_, if_pos hi0⟩
    · have hle := List.length_take_le' i s
      obtain ⟨⟨f₂, e₂, n⟩, hw⟩ := hret f₁ e (s.take i) p hp (by omega)
      rw [if_neg hi0, hw, Option.bind_eq_bind, Option.bind_some]
      by_cases hn : n < i
      · exact ⟨_, if_pos hn⟩
      · exact ⟨_, if_neg hn⟩

theorem putc_exists {N : ℕ} (hret : Returns write N) (h : Keeps Sent f e put)
    (hN : f.bufSize + 1 < N) : ∃ r, putc write f e c = some r := by
  rw [putc]
  split_ifs with hroom
  · exact ⟨_, rfl⟩
  · obtain ⟨f₁, p, heq, hp, -, hsize, hk⟩ := h.ensureWrite
    have hfits := hk.fits
    rw [hp, Option.getD_some] at hfits
    simp only [overflow, heq, Bool.false_eq_true, if_false]
    split_ifs with hroom₁
    · exact ⟨_, rfl⟩
    · obtain ⟨r, hw⟩ := hret f₁ e [c] p hp (by rw [List.length_singleton]; omega)
      rw [hw]
      exact ⟨_, rfl⟩

theorem fflush_exists {N : ℕ} (seek : ε → ℤ → ε) (hret : Returns write N)
    (h : Keeps Sent f e put) (hN : f.bufSize < N) : ∃ r, fflush write seek f e = some r := by
  rw [fflush]
  split_ifs with hnil
  · exact ⟨_, rfl⟩
  · have hfits := h.fits
    cases hp : f.pending with
    | none => exact absurd (by rw [hp]; rfl) hnil
    | some p =>
      rw [hp, Option.getD_some] at hfits
      obtain ⟨⟨f₁, e₁, k⟩, hw⟩ := hret f e [] p hp (by rw [List.length_nil]; omega)
      rw [hw, Option.bind_eq_bind, Option.bind_some]
      by_cases hnone : f₁.pending.isNone = true
      · exact ⟨_, if_pos hnone⟩
      · exact ⟨_, if_neg hnone⟩

theorem step_exists {N : ℕ} (seek : ε → ℤ → ε) (hret : Returns write N) (h : Keeps Sent f e put)
    {call : Call} (hN : f.bufSize + call.bytes.length < N) :
    ∃ r, step write seek (f, e) call = some r := by
  cases call with
  | putc c =>
    obtain ⟨r, hr⟩ := putc_exists (c := c) hret h hN
    exact ⟨_, by rw [step, hr, Option.map_some]⟩
  | fwrite size nmemb src =>
    obtain ⟨r, hr⟩ := fwritex_exists hret h hN
    rw [Call.bytes] at hr
    exact ⟨_, by rw [step, fwrite, hr]; rfl⟩
  | fflush =>
    obtain ⟨r, hr⟩ := fflush_exists seek hret h (by omega)
    exact ⟨_, by rw [step, hr, Option.map_some]⟩

/-- Every call returns, up to the first one that reports a failure. -/
theorem run_exists (hsink : Sink Sent write) {seek : ε → ℤ → ε}
    (hseek : ∀ e i l, Sent e l → Sent (seek e i) l) {N : ℕ} (hret : Returns write N)
    (h : Keeps Sent f e put) (calls : List Call)
    (hN : f.bufSize + (calls.flatMap Call.bytes).length < N) :
    (∃ s bs, Run.outputs (step write seek) (f, e) calls = some (s, bs) ∧ ∀ b ∈ bs, b = true) ∨
      ∃ calls₁ call calls₂ s bs, calls = calls₁ ++ call :: calls₂ ∧
        Run.outputs (step write seek) (f, e) (calls₁ ++ [call]) = some (s, bs ++ [false]) ∧
        ∀ b ∈ bs, b = true := by
  induction calls generalizing f e put with
  | nil => exact .inl ⟨(f, e), [], rfl, by simp⟩
  | cons call calls ih =>
    rw [List.flatMap_cons, List.length_append] at hN
    have hcall : f.bufSize + call.bytes.length < N := by omega
    obtain ⟨⟨⟨f₁, e₁⟩, b⟩, hstep⟩ := step_exists seek hret h hcall
    obtain ⟨rfl, -, hsize, hk⟩ | ⟨rfl, -⟩ := step_outcome hsink hseek h hstep
    · obtain ⟨s, bs, hr, hb⟩ | ⟨calls₁, call', calls₂, s, bs, rfl, hr, hb⟩ :=
        ih hk (by omega)
      · refine .inl ⟨s, true :: bs, by simp [Run.outputs, hstep, hr], ?_⟩
        simpa using hb
      · refine .inr ⟨call :: calls₁, call', calls₂, s, true :: bs, rfl, ?_, by simpa using hb⟩
        simp [Run.outputs, hstep, hr]
    · exact .inr ⟨[], call, calls, (f₁, e₁), [], rfl, by simp [Run.outputs, hstep], by simp⟩

/-- At the end of the program the buffer is sent, or something of it is lost. -/
theorem closeFile_sent (hsink : Sink Sent write) {seek : ε → ℤ → ε}
    (hseek : ∀ e i l, Sent e l → Sent (seek e i) l) (h : Keeps Sent f e put)
    (hr : closeFile write seek f e = some (f', e')) :
    (f'.err = f.err ∧ Sent e' put) ∨ f'.err = true ∧ ∃ l, l <+: put ∧ Sent e' l := by
  have hsync : ∀ (f : File) (e : ε) l, Sent e l →
      Sent (if f.rpos = f.rend then e else seek e ((f.rpos : ℤ) - f.rend)) l := by
    intro f e l hl
    split_ifs
    · exact hl
    · exact hseek _ _ _ hl
  rw [closeFile] at hr
  by_cases hnil : f.pending.getD [] = []
  · obtain ⟨l, hl, hput⟩ := h.sent
    rw [hnil, List.append_nil] at hput
    rw [if_pos hnil, Option.bind_eq_bind, Option.bind_some, Option.pure_def, Option.some.injEq,
      Prod.mk.injEq] at hr
    obtain ⟨rfl, rfl⟩ := hr
    exact .inl ⟨rfl, hsync _ _ _ (hput ▸ hl)⟩
  · rw [if_neg hnil] at hr
    obtain ⟨r, hmap, hr⟩ := Option.bind_eq_some_iff.mp hr
    obtain ⟨⟨f₁, e₁, k⟩, hw, rfl⟩ := Option.map_eq_some_iff.mp hmap
    simp only [Option.pure_def, Option.some.injEq, Prod.mk.injEq] at hr
    obtain ⟨rfl, rfl⟩ := hr
    obtain ⟨p, hp⟩ : ∃ p, f.pending = some p := by
      cases hp : f.pending with
      | none => exact absurd (by rw [hp]; rfl) hnil
      | some p => exact ⟨p, rfl⟩
    obtain ⟨-, ⟨herr, hnil₁, -, hk⟩ | ⟨herr, -, m, -, hs, -⟩⟩ := hsink.write_spec h hp hw
    · obtain ⟨l, hl, hput⟩ := hk.sent
      rw [hnil₁, Option.getD_some, List.append_nil, List.append_nil] at hput
      exact .inl ⟨herr, hsync _ _ _ (hput ▸ hl)⟩
    · rw [List.append_nil] at hs
      exact .inr ⟨herr, _, List.take_prefix m put, hsync _ _ _ hs⟩

end

end Koerix.Stdio
