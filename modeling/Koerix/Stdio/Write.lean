import Koerix.Fs.Vectored
import Koerix.Stdio.File

/-! # Standard output

The write functions that pass the bytes of a stream to a descriptor. They call `writev` again for
what it has not passed on. With a descriptor that leaves no gaps they are sinks, so that standard
output passes on what a program puts into it.
-/

namespace Koerix.Stdio

open Vectored (Gapless)

/-- What is behind a stream: the bytes that the descriptor has accepted, the number of calls of
`writev` so far, and whether `f->write` is still `__stdout_write`. -/
structure Out where
  sent : List UInt8
  calls : ℕ
  fresh : Bool

/-- What is left of the buffers after `cnt` bytes of them. -/
def advance : List (List UInt8) → ℕ → List (List UInt8)
  | buf :: buf' :: iov, cnt =>
    if buf.length < cnt then buf'.drop (cnt - buf.length) :: iov
    else buf.drop cnt :: buf' :: iov
  | [buf], cnt => [buf.drop cnt]
  | [], _ => []

/-- The loop of `__stdio_write`, with the answers of the descriptor in each call of `writev`. -/
def stdioWriteLoop (fds : ℕ → Vectored.Descriptor) (len : ℕ) (f : File) :
    ℕ → Out → List (List UInt8) → ℕ → Option (File × Out × ℕ)
  | 0, _, _, _ => none
  | fuel + 1, e, iov, rem =>
    let r := Vectored.writev (fds e.calls) iov
    let e := { e with sent := e.sent ++ r.accepted, calls := e.calls + 1 }
    if r.ret = rem then some ({ f with pending := some [] }, e, len)
    else if r.ret < 0 then
      some ({ f with pending := none, err := true }, e,
        if iov.length = 2 then 0 else len - (iov.headD []).length)
    else stdioWriteLoop fds len f fuel e (advance iov r.ret.toNat) (rem - r.ret.toNat)

/-- `__stdio_write`. -/
def stdioWrite (fds : ℕ → Vectored.Descriptor) (fuel : ℕ) : WriteFn Out := fun f e s =>
  let p := f.pending.getD []
  stdioWriteLoop fds s.length f fuel e [p, s] (p.length + s.length)

/-- `__stdout_write`, which is called once: the lines of a stream that is no terminal are not
flushed. -/
def stdoutWrite (fds : ℕ → Vectored.Descriptor) (isTty : Bool) (fuel : ℕ) : WriteFn Out :=
  fun f e s =>
    if e.fresh then
      stdioWrite fds fuel (if !f.svb && !isTty then { f with lbf := none } else f)
        { e with fresh := false } s
    else stdioWrite fds fuel f e s

/-- `stdout`. -/
def stdout : File where
  err := false
  eof := false
  noRead := true
  noWrite := false
  svb := false
  mode := 0
  bufSize := 1024
  lbf := some 10
  pending := none
  mem := []
  rpos := 0
  rend := 0

/-- `stderr`, which has no buffer. -/
def stderr : File := { stdout with bufSize := 0, lbf := none }

/-- Every call of `writev` that has something to pass on fails or passes something on. -/
def Progresses (fds : ℕ → Vectored.Descriptor) : Prop :=
  ∀ call iov, iov.flatten ≠ [] → (Vectored.writev (fds call) iov).ret ≠ 0

variable {fds : ℕ → Vectored.Descriptor} {f f' : File} {e e' : Out} {p s l : List UInt8}
  {iov : List (List UInt8)} {m k n fuel : ℕ}

/-- The buffers after `m` bytes of `p` and `s`. -/
def Rest (p s : List UInt8) (m : ℕ) (iov : List (List UInt8)) : Prop :=
  m ≤ p.length ∧ iov = [p.drop m, s] ∨
    p.length < m ∧ m ≤ p.length + s.length ∧ iov = [s.drop (m - p.length)]

namespace Rest

theorem flatten (h : Rest p s m iov) : iov.flatten = (p ++ s).drop m := by
  rcases h with ⟨hm, rfl⟩ | ⟨hm, -, rfl⟩
  · simp [List.drop_append_of_le_length hm]
  · simp [List.drop_append, List.drop_eq_nil_of_le (Nat.le_of_lt hm)]

theorem le (h : Rest p s m iov) : m ≤ (p ++ s).length := by
  rw [List.length_append]
  rcases h with ⟨hm, -⟩ | ⟨-, hm, -⟩
  · omega
  · exact hm

theorem advance (h : Rest p s m iov) (hn : m + n ≤ (p ++ s).length) :
    Rest p s (m + n) (advance iov n) := by
  rw [List.length_append] at hn
  rcases h with ⟨hm, rfl⟩ | ⟨hm, -, rfl⟩
  · rw [Stdio.advance, List.length_drop]
    split_ifs with hlt
    · exact .inr ⟨by omega, hn, by rw [show n - (p.length - m) = m + n - p.length by omega]⟩
    · exact .inl ⟨by omega, by rw [List.drop_drop]⟩
  · exact .inr ⟨by omega, hn, by
      rw [Stdio.advance, List.drop_drop, show m - p.length + n = m + n - p.length by omega]⟩

theorem returned (h : Rest p s m iov) :
    (if iov.length = 2 then 0 else s.length - (iov.headD []).length) = m - p.length := by
  rcases h with ⟨hm, rfl⟩ | ⟨hm, hle, rfl⟩
  · have h2 : [p.drop m, s].length = 2 := rfl
    rw [if_pos h2]
    omega
  · rw [if_neg (by simp), List.headD_cons, List.length_drop]
    omega

end Rest

/-- The loop passes on all of the rest, or fails. -/
theorem stdioWriteLoop_spec (hfds : Gapless fds) (h : Rest p s m iov)
    (hm : m < (p ++ s).length ∨ m = 0) (hsent : e.sent = l ++ (p ++ s).take m)
    (hr : stdioWriteLoop fds s.length f fuel e iov ((p ++ s).length - m) = some (f', e', k)) :
    Frame f f' ∧ (f'.err = f.err ∧ f'.pending = some [] ∧ k = s.length ∧ e'.sent = l ++ p ++ s ∨
      Lost (fun e l => e.sent = l) f' e' (l ++ p) s k) := by
  induction fuel generalizing e iov m with
  | zero => exact absurd hr nofun
  | succ fuel ih =>
    rw [stdioWriteLoop] at hr
    have hle := h.le
    have hw := Vectored.writevFrom_of_contiguous (hfds e.calls (iov.map List.length)) 0
    rw [h.flatten, ← Vectored.writev] at hw
    obtain ⟨hneg, -, hacc⟩ | ⟨n, hret, hn, hacc, -⟩ := hw
    · rw [hacc, if_neg (by omega), if_pos hneg, h.returned] at hr
      simp only [List.append_nil, Option.some.injEq, Prod.mk.injEq] at hr
      obtain ⟨rfl, rfl, rfl⟩ := hr
      refine ⟨⟨rfl, rfl, .inl rfl⟩, .inr ⟨rfl, rfl, l.length + m, ?_, ?_, ?_, fun hs => ?_⟩⟩
      · simp only [List.length_append] at hle ⊢
        omega
      · show e.sent = _
        rw [hsent, List.append_assoc, List.take_length_add_append]
      · rw [List.length_append]
        omega
      · have hpos := List.length_pos_iff.mpr hs
        rw [List.length_append] at hm
        omega
    · rw [List.length_drop] at hn
      rw [Int.zero_add] at hret
      have hsent' : e.sent ++ ((p ++ s).drop m).take n = l ++ (p ++ s).take (m + n) := by
        rw [hsent, List.append_assoc, List.take_add]
      rw [hacc, hret, Int.toNat_natCast] at hr
      by_cases hall : n = (p ++ s).length - m
      · rw [if_pos (by rw [hall])] at hr
        simp only [Option.some.injEq, Prod.mk.injEq] at hr
        obtain ⟨rfl, rfl, rfl⟩ := hr
        refine ⟨⟨rfl, rfl, .inl rfl⟩, .inl ⟨rfl, rfl, rfl, ?_⟩⟩
        rw [hsent', List.take_of_length_le (by omega), List.append_assoc]
      · rw [if_neg (by omega), if_neg (by omega), Nat.sub_sub] at hr
        exact ih (h.advance (by omega)) (.inl (by omega)) hsent' hr

theorem sink_stdioWrite (hfds : Gapless fds) (fuel : ℕ) :
    Sink (fun e l => e.sent = l) (stdioWrite fds fuel) := by
  intro f e p s f' e' k l hp hl hr
  rw [stdioWrite] at hr
  simp only [hp, Option.getD_some] at hr
  have hsent : e.sent = l ++ (p ++ s).take 0 := by rw [hl, List.take_zero, List.append_nil]
  rw [← List.length_append, ← Nat.sub_zero (p ++ s).length] at hr
  exact stdioWriteLoop_spec hfds (.inl ⟨Nat.zero_le _, rfl⟩) (.inr rfl) hsent hr

theorem sink_stdoutWrite (hfds : Gapless fds) (isTty : Bool) (fuel : ℕ) :
    Sink (fun e l => e.sent = l) (stdoutWrite fds isTty fuel) := by
  intro f e p s f' e' k l hp hl hr
  rw [stdoutWrite] at hr
  split_ifs at hr with hfresh htty
  · obtain ⟨⟨hsize, hnw, hlbf⟩, hres⟩ := sink_stdioWrite hfds fuel { f with lbf := none }
      { e with fresh := false } p s f' e' k l hp hl hr
    refine ⟨⟨hsize, hnw, .inr ?_⟩, hres⟩
    rcases hlbf with hlbf | hlbf <;> exact hlbf
  · exact sink_stdioWrite hfds fuel f { e with fresh := false } p s f' e' k l hp hl hr
  · exact sink_stdioWrite hfds fuel f e p s f' e' k l hp hl hr

theorem stdioWriteLoop_exists (hfds : Gapless fds) (hprog : Progresses fds) (h : Rest p s m iov)
    (hf : (p ++ s).length - m < fuel) :
    ∃ r, stdioWriteLoop fds s.length f fuel e iov ((p ++ s).length - m) = some r := by
  induction fuel generalizing e iov m with
  | zero => omega
  | succ fuel ih =>
    rw [stdioWriteLoop]
    have hw := Vectored.writevFrom_of_contiguous (hfds e.calls (iov.map List.length)) 0
    have hmove := hprog e.calls iov
    rw [h.flatten] at hmove
    rw [h.flatten, ← Vectored.writev] at hw
    obtain ⟨hneg, -, hacc⟩ | ⟨n, hret, hn, hacc, -⟩ := hw
    · rw [if_neg (by omega), if_pos hneg]
      exact ⟨_, rfl⟩
    · rw [List.length_drop] at hn
      rw [Int.zero_add] at hret
      rw [hret, Int.toNat_natCast] at ⊢
      rw [hret] at hmove
      by_cases hall : n = (p ++ s).length - m
      · rw [if_pos (by rw [hall])]
        exact ⟨_, rfl⟩
      · rw [if_neg (by omega), if_neg (by omega), Nat.sub_sub]
        have hne : (p ++ s).drop m ≠ [] := by
          rw [Ne, List.drop_eq_nil_iff]
          omega
        have h0 := hmove hne
        exact ih (h.advance (by omega)) (by omega)

theorem returns_stdoutWrite (hfds : Gapless fds) (hprog : Progresses fds) (isTty : Bool)
    (fuel : ℕ) : Returns (stdoutWrite fds isTty fuel) fuel := by
  intro f e s p hp hlt
  have hret : ∀ (f : File) (e : Out), f.pending = some p →
      ∃ r, stdioWrite fds fuel f e s = some r := by
    intro f e hp
    rw [← List.length_append, ← Nat.sub_zero (p ++ s).length] at hlt
    rw [stdioWrite]
    simp only [hp, Option.getD_some]
    rw [← List.length_append, ← Nat.sub_zero (p ++ s).length]
    exact stdioWriteLoop_exists hfds hprog (.inl ⟨Nat.zero_le _, rfl⟩) hlt
  rw [stdoutWrite]
  split_ifs
  · exact hret { f with lbf := none } _ hp
  · exact hret f _ hp
  · exact hret f e hp

theorem keeps_stdout (fresh : Bool) :
    Keeps (fun (e : Out) l => e.sent = l) stdout ⟨[], 0, fresh⟩ [] where
  canWrite := rfl
  sent := ⟨[], rfl, rfl⟩
  fits := Nat.zero_le _
  line _ hc := ⟨(Option.some_inj.mp hc).symm, List.not_mem_nil⟩

/-- The state in which a program finds standard output. -/
def stdoutStart : File × Out := (stdout, ⟨[], 0, true⟩)

/-- Calls of `putc`, `fwrite` and `fflush` on standard output; the position of a descriptor does
not matter for what it has accepted. -/
def stdoutStep (fds : ℕ → Vectored.Descriptor) (isTty : Bool) (fuel : ℕ) :
    File × Out → Call → Option ((File × Out) × Bool) :=
  step (stdoutWrite fds isTty fuel) fun e _ => e

/-- Standard output passes on what a program puts into it. In every run of calls whose descriptor
leaves no gaps: as long as no call reports a failure, the bytes that the descriptor has accepted
and those in the buffer are the ones that have been put in, and the rest is accepted at the end of
the program. When a call reports a failure, what has been accepted is a first part of them. -/
theorem stdout_keeps_stream (hfds : Gapless fds) (isTty : Bool) (calls : List Call)
    {bs : List Bool} (hr : Run.outputs (stdoutStep fds isTty fuel) stdoutStart calls =
      some ((f, e), bs)) :
    ((∀ b ∈ bs, b = true) → f.err = false ∧
      e.sent ++ f.pending.getD [] = calls.flatMap Call.bytes ∧
      (f.pending.getD []).length ≤ 1024 ∧ (f.lbf = some 10 → 10 ∉ f.pending.getD []) ∧
      ∀ f' e', closeFile (stdoutWrite fds isTty fuel) (fun e _ => e) f e = some (f', e') →
        f'.err = false → e'.sent = calls.flatMap Call.bytes) ∧
    ∀ bs', bs = bs' ++ [false] → (∀ b ∈ bs', b = true) →
      f.err = true ∧ e.sent <+: calls.flatMap Call.bytes := by
  have hsink := sink_stdoutWrite hfds isTty fuel
  have hseek : ∀ (e : Out) (i : ℤ) l, e.sent = l → e.sent = l := fun _ _ _ h => h
  refine ⟨fun hb => ?_, ?_⟩
  · obtain ⟨herr, hsize, hk⟩ := run_keeps hsink hseek (keeps_stdout true) hr hb
    obtain ⟨l, hl, hput⟩ := hk.sent
    rw [List.nil_append] at hput hk
    refine ⟨herr, by rw [hl, hput], Nat.le_trans hk.fits (Nat.le_of_eq hsize),
      fun hlbf => (hk.line 10 hlbf).2, ?_⟩
    intro f' e' hclose herr'
    obtain ⟨-, hs⟩ | ⟨herr₁, -⟩ := closeFile_sent hsink hseek hk hclose
    · exact hs
    · exact absurd (herr'.symm.trans herr₁) Bool.false_ne_true
  · rintro bs' rfl hb
    obtain ⟨herr, l, hl, hs⟩ := run_lost hsink hseek (keeps_stdout true) hr hb
    exact ⟨herr, hs ▸ hl⟩

/-- A descriptor that takes everything. -/
def takesAll : ℕ → Vectored.Descriptor := fun _ _ len => .done (Fin.last len)

theorem gapless_takesAll : Gapless takesAll := by
  intro call lens
  have h : ∀ sent k, Vectored.Contiguous (takesAll call) false sent k lens := by
    induction lens with
    | nil => exact fun _ _ => trivial
    | cons len lens ih =>
      intro sent k
      simp only [Vectored.Contiguous, takesAll, Bool.false_eq_true, false_implies, true_and,
        Fin.val_last, Nat.lt_irrefl, decide_false, Bool.or_false]
      exact ih _ _
  exact h 0 0

theorem progresses_takesAll : Progresses takesAll := by
  intro call iov hne
  have h : ∀ call' len, (Vectored.writevFrom (takesAll call) call' len iov).ret =
      len + iov.flatten.length := by
    clear hne
    induction iov with
    | nil => simp [Vectored.writevFrom]
    | cons buf iov ih =>
      intro call' len
      simp only [Vectored.writevFrom, takesAll, Fin.val_last] at ih ⊢
      rw [ih, List.flatten_cons, List.length_append]
      push_cast
      omega
  have hpos := List.length_pos_iff.mpr hne
  rw [Vectored.writev, h]
  omega

/-- Two calls on a terminal: a character, and a line with the beginning of another one. -/
def twoCalls : List Call := [.putc 97, .fwrite 1 3 #v[98, 10, 99]]

/-- The state after them: the line is accepted, and the rest is in the buffer. -/
def twoCallsEnd : File × Out :=
  ({ stdout with mode := -1, pending := some [99] }, ⟨[97, 98, 10], 1, false⟩)

theorem stdout_keeps_stream_twoCalls :
    twoCallsEnd.2.sent ++ twoCallsEnd.1.pending.getD [] = twoCalls.flatMap Call.bytes :=
  have hr : Run.outputs (stdoutStep takesAll true 5) stdoutStart twoCalls =
    some (twoCallsEnd, [true, true]) := rfl
  ((stdout_keeps_stream gapless_takesAll true twoCalls hr).1 (by decide)).2.1

/-- No call hangs: with a descriptor that leaves no gaps and always passes on something, every
call returns, up to the first one that reports a failure. -/
theorem stdout_returns (hfds : Gapless fds) (hprog : Progresses fds) (isTty : Bool)
    (calls : List Call) (hfuel : 1024 + (calls.flatMap Call.bytes).length < fuel) :
    (∃ s bs, Run.outputs (stdoutStep fds isTty fuel) stdoutStart calls = some (s, bs) ∧
      ∀ b ∈ bs, b = true) ∨
    ∃ calls₁ call calls₂ s bs, calls = calls₁ ++ call :: calls₂ ∧
      Run.outputs (stdoutStep fds isTty fuel) stdoutStart (calls₁ ++ [call]) =
        some (s, bs ++ [false]) ∧ ∀ b ∈ bs, b = true :=
  run_exists (sink_stdoutWrite hfds isTty fuel) (fun _ _ _ h => h)
    (returns_stdoutWrite hfds hprog isTty fuel) (keeps_stdout true) calls hfuel

theorem stdout_returns_twoCalls : ∃ s bs,
    Run.outputs (stdoutStep takesAll true 2000) stdoutStart twoCalls = some (s, bs) :=
  (stdout_returns gapless_takesAll progresses_takesAll true twoCalls (by decide)).elim
    (fun ⟨s, bs, hr, _⟩ => ⟨s, bs, hr⟩) fun _ => ⟨(twoCallsEnd.1, twoCallsEnd.2), [true, true], rfl⟩

theorem keeps_stderr : Keeps (fun (e : Out) l => e.sent = l) stderr ⟨[], 0, false⟩ [] where
  canWrite := rfl
  sent := ⟨[], rfl, rfl⟩
  fits := Nat.zero_le _
  line _ hc := absurd hc nofun

/-- Standard error holds nothing back: after every run of calls that report no failure the
descriptor has accepted what has been put in. -/
theorem stderr_holds_nothing_back (hfds : Gapless fds) (calls : List Call) {bs : List Bool}
    (hr : Run.outputs (step (stdioWrite fds fuel) fun e _ => e) (stderr, ⟨[], 0, false⟩) calls =
      some ((f, e), bs)) (hb : ∀ b ∈ bs, b = true) : e.sent = calls.flatMap Call.bytes := by
  obtain ⟨-, hsize, hk⟩ :=
    run_keeps (sink_stdioWrite hfds fuel) (fun _ _ _ h => h) keeps_stderr hr hb
  obtain ⟨l, hl, hput⟩ := hk.sent
  have hnil : f.pending.getD [] = [] :=
    List.length_eq_zero_iff.mp (Nat.le_zero.mp (Nat.le_trans hk.fits (Nat.le_of_eq hsize)))
  rwa [hnil, List.append_nil, List.nil_append, ← hl] at hput

theorem stderr_holds_nothing_back_twoCalls :
    Out.sent ⟨[97, 98, 10, 99], 2, false⟩ = twoCalls.flatMap Call.bytes :=
  have hr : Run.outputs (step (stdioWrite takesAll 5) fun e _ => e) (stderr, ⟨[], 0, false⟩)
    twoCalls = some (({ stderr with mode := -1, pending := some [] },
      ⟨[97, 98, 10, 99], 2, false⟩), [true, true]) := rfl
  stderr_holds_nothing_back gapless_takesAll twoCalls hr (by decide)

end Koerix.Stdio
