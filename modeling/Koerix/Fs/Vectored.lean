import Mathlib.Algebra.Group.Nat.Defs
import Mathlib.Data.List.Basic
import Mathlib.Data.List.TakeDrop
import Mathlib.Data.Int.Notation

/-! # Vectored reads and writes

`readv` and `writev` are loops over calls of `read` and `write`. They go on with the next buffer
after a call that has transferred less than was asked for, which leaves a gap, and forget what
has been transferred when a call fails.
-/

namespace Koerix.Vectored

/-- What `read` or `write` answer when so many bytes are asked for: a negative number, or how
many bytes they have transferred. -/
inductive Answer (len : ℕ)
  | error (e : ℕ)
  | done (k : Fin (len + 1))

/-- The answers of a descriptor, by the number of the call and the length of its buffer. -/
abbrev Descriptor := (call len : ℕ) → Answer len

/-- What is left behind by `readv`: what it returns, the buffers, and the number of bytes
consumed. -/
structure ReadResult where
  ret : ℤ
  buffers : List (List UInt8)
  consumed : ℕ

/-- `read` into a buffer. -/
def fill (stream : ℕ → UInt8) (pos : ℕ) (buf : List UInt8) (k : ℕ) : List UInt8 :=
  (List.range k).map (fun j => stream (pos + j)) ++ buf.drop k

/-- The loop of `readv`, from the given call on: `len` is what has been added up, and `pos` the
position in the stream. Buffers that do not overlap have fewer than `2^63` bytes altogether, which
`ssize_t` holds. -/
def readvFrom (fd : Descriptor) (stream : ℕ → UInt8) :
    (call : ℕ) → (len : ℤ) → (pos : ℕ) → List (List UInt8) → ReadResult
  | _, len, pos, [] => ⟨len, [], pos⟩
  | call, len, pos, buf :: iov =>
    match fd call buf.length with
    | .error e => ⟨.negSucc e, buf :: iov, pos⟩
    | .done k =>
      let r := readvFrom fd stream (call + 1) (len + k) (pos + k) iov
      { r with buffers := fill stream pos buf k :: r.buffers }

def readv (fd : Descriptor) (stream : ℕ → UInt8) (iov : List (List UInt8)) : ReadResult :=
  readvFrom fd stream 0 0 0 iov

/-- What `writev` returns, and the bytes that the descriptor has accepted. -/
structure WriteResult where
  ret : ℤ
  accepted : List UInt8

/-- The loop of `writev`, from the given call on. -/
def writevFrom (fd : Descriptor) : (call : ℕ) → (len : ℤ) → List (List UInt8) → WriteResult
  | _, len, [] => ⟨len, []⟩
  | call, len, buf :: iov =>
    match fd call buf.length with
    | .error e => ⟨.negSucc e, []⟩
    | .done k =>
      let r := writevFrom fd (call + 1) (len + k) iov
      { r with accepted := buf.take k ++ r.accepted }

def writev (fd : Descriptor) (iov : List (List UInt8)) : WriteResult := writevFrom fd 0 0 iov

/-- `readv` into buffers of these lengths keeps the stream: the bytes consumed stand at the
beginning of the buffers, and there are none if it fails. -/
def ReadsInOrder (fd : Descriptor) (lens : List ℕ) : Prop :=
  ∀ stream iov, iov.map List.length = lens →
    (0 ≤ (readv fd stream iov).ret →
      (readv fd stream iov).ret = (readv fd stream iov).consumed ∧
      (readv fd stream iov).buffers.flatten =
        fill stream 0 iov.flatten (readv fd stream iov).consumed) ∧
    ((readv fd stream iov).ret < 0 → (readv fd stream iov).consumed = 0)

/-- `writev` from buffers of these lengths keeps the stream: the bytes accepted are those at the
beginning of the buffers, and there are none if it fails. -/
def WritesInOrder (fd : Descriptor) (lens : List ℕ) : Prop :=
  ∀ iov, iov.map List.length = lens →
    (0 ≤ (writev fd iov).ret →
      (writev fd iov).ret = (writev fd iov).accepted.length ∧
      (writev fd iov).accepted = iov.flatten.take (writev fd iov).accepted.length) ∧
    ((writev fd iov).ret < 0 → (writev fd iov).accepted = [])

/-- No call transfers anything after one that has transferred less than was asked for, and none
fails after something has been transferred. -/
def Contiguous (fd : Descriptor) : (gap : Bool) → (sent call : ℕ) → List ℕ → Prop
  | _, _, _, [] => True
  | gap, sent, call, len :: lens =>
    match fd call len with
    | .error _ => sent = 0
    | .done k => (gap = true → (k : ℕ) = 0) ∧
        Contiguous fd (gap || decide (k < len)) (sent + k) (call + 1) lens

/-- No call of `readv` or `writev` leaves a gap. -/
def Gapless (fds : ℕ → Descriptor) : Prop := ∀ call lens, Contiguous (fds call) false 0 0 lens

variable {fd : Descriptor} {stream : ℕ → UInt8} {iov : List (List UInt8)} {gap : Bool}
  {sent call pos k : ℕ} {len : ℤ} {buf : List UInt8}

theorem fill_append (hk : k ≤ buf.length) {n : ℕ} (hn : k < buf.length → n = 0)
    (rest : List UInt8) :
    fill stream pos buf k ++ fill stream (pos + k) rest n =
      fill stream pos (buf ++ rest) (k + n) := by
  rcases Nat.lt_or_eq_of_le hk with hlt | rfl
  · obtain rfl := hn hlt
    simp [fill, List.drop_append_of_le_length hk]
  · have hend : buf.drop (buf.length + n) = [] := List.drop_eq_nil_of_le (by omega)
    simp [fill, List.range_add, Function.comp_def, Nat.add_assoc, List.drop_append, hend]

/-- What a contiguous loop reads. -/
theorem readvFrom_of_contiguous (h : Contiguous fd gap sent call (iov.map List.length))
    (len : ℤ) (pos : ℕ) :
    ((readvFrom fd stream call len pos iov).ret < 0 ∧ sent = 0 ∧
      (readvFrom fd stream call len pos iov).consumed = pos) ∨
    ∃ n : ℕ, (readvFrom fd stream call len pos iov).ret = len + n ∧
      (readvFrom fd stream call len pos iov).consumed = pos + n ∧
      (readvFrom fd stream call len pos iov).buffers.flatten = fill stream pos iov.flatten n ∧
      (gap = true → n = 0) := by
  induction iov generalizing gap sent call len pos with
  | nil => exact .inr ⟨0, by simp [readvFrom], rfl, rfl, fun _ => rfl⟩
  | cons buf iov ih =>
    rw [List.map_cons, Contiguous] at h
    rw [readvFrom]
    cases ha : fd call buf.length with
    | error e =>
      simp only [ha] at h
      exact .inl ⟨Int.negSucc_lt_zero e, h, rfl⟩
    | done k =>
      simp only [ha] at h
      have hk : (k : ℕ) ≤ buf.length := Nat.lt_succ_iff.mp k.isLt
      obtain ⟨hret, hsent, hpos⟩ | ⟨n, hret, hpos, hbuf, hn⟩ := ih h.2 (len + k) (pos + k)
      · exact .inl ⟨hret, by omega, by simp only [hpos]; omega⟩
      · refine .inr ⟨k + n, ?_, ?_, ?_, ?_⟩
        · simp only [hret]
          push_cast
          omega
        · simp only [hpos]
          omega
        · simp only [List.flatten_cons, hbuf]
          exact fill_append hk (fun hlt => hn (by simp [hlt])) _
        · intro hgap
          have h0 := h.1 hgap
          have hn0 := hn (by simp [hgap])
          omega

/-- What a contiguous loop writes. -/
theorem writevFrom_of_contiguous (h : Contiguous fd gap sent call (iov.map List.length))
    (len : ℤ) :
    ((writevFrom fd call len iov).ret < 0 ∧ sent = 0 ∧ (writevFrom fd call len iov).accepted = []) ∨
    ∃ n : ℕ, (writevFrom fd call len iov).ret = len + n ∧ n ≤ iov.flatten.length ∧
      (writevFrom fd call len iov).accepted = iov.flatten.take n ∧ (gap = true → n = 0) := by
  induction iov generalizing gap sent call len with
  | nil => exact .inr ⟨0, by simp [writevFrom], Nat.zero_le _, rfl, fun _ => rfl⟩
  | cons buf iov ih =>
    rw [List.map_cons, Contiguous] at h
    rw [writevFrom]
    cases ha : fd call buf.length with
    | error e =>
      simp only [ha] at h
      exact .inl ⟨Int.negSucc_lt_zero e, h, rfl⟩
    | done k =>
      simp only [ha] at h
      have hk : (k : ℕ) ≤ buf.length := Nat.lt_succ_iff.mp k.isLt
      obtain ⟨hret, hsent, hacc⟩ | ⟨n, hret, hle, hacc, hn⟩ := ih h.2 (len + k)
      · have h0 : (k : ℕ) = 0 := by omega
        refine .inl ⟨hret, by omega, ?_⟩
        show buf.take k ++ _ = []
        rw [hacc, h0]
        rfl
      · refine .inr ⟨k + n, ?_, ?_, ?_, ?_⟩
        · simp only [hret]
          push_cast
          omega
        · rw [List.flatten_cons, List.length_append]
          omega
        · simp only [List.flatten_cons, hacc]
          rcases Nat.lt_or_eq_of_le hk with hlt | heq
          · obtain rfl := hn (by simp [hlt])
            simp [List.take_append_of_le_length hk]
          · simp [heq, List.take_append]
        · intro hgap
          have h0 := h.1 hgap
          have hn0 := hn (by simp [hgap])
          omega

/-- Some call fails. -/
def Fails (fd : Descriptor) : (call : ℕ) → List ℕ → Prop
  | _, [] => False
  | call, len :: lens =>
    match fd call len with
    | .error _ => True
    | .done _ => Fails fd (call + 1) lens

/-- The number of bytes that the calls transfer, up to the first one that fails. -/
def total (fd : Descriptor) : (call : ℕ) → List ℕ → ℕ
  | _, [] => 0
  | call, len :: lens =>
    match fd call len with
    | .error _ => 0
    | .done k => k + total fd (call + 1) lens

/-- Buffers in which zeros mark the bytes that are transferred. -/
def marked (fd : Descriptor) : (call : ℕ) → List ℕ → List (List UInt8)
  | _, [] => []
  | call, len :: lens =>
    (match fd call len with
    | .error _ => .replicate len 1
    | .done k => .replicate k 0 ++ .replicate (len - k) 1) :: marked fd (call + 1) lens

theorem map_length_marked (fd : Descriptor) (call : ℕ) (lens : List ℕ) :
    (marked fd call lens).map List.length = lens := by
  induction lens generalizing call with
  | nil => rfl
  | cons len lens ih =>
    rw [marked, List.map_cons, ih]
    cases fd call len with
    | error e => simp
    | done k =>
      have hk := k.isLt
      simp
      omega

variable {lens : List ℕ}

theorem contiguous_of_fails (h : Fails fd call lens) (h0 : total fd call lens = 0) :
    Contiguous fd gap 0 call lens := by
  induction lens generalizing gap call with
  | nil => trivial
  | cons len lens ih =>
    rw [Fails] at h
    rw [total] at h0
    rw [Contiguous]
    cases ha : fd call len with
    | error e => rfl
    | done k =>
      simp only [ha] at h h0
      have hk : (k : ℕ) = 0 := by omega
      simp only [hk, Nat.add_zero]
      exact ⟨fun _ => trivial, ih h (by omega)⟩

theorem contiguous_of_marked (h : ¬ Fails fd call lens)
    (hsorted : (marked fd call lens).flatten.Pairwise fun a b => b = 0 → a = 0)
    (hgap : gap = true → 0 ∉ (marked fd call lens).flatten) (sent : ℕ) :
    Contiguous fd gap sent call lens := by
  induction lens generalizing gap call sent with
  | nil => trivial
  | cons len lens ih =>
    rw [Fails] at h
    rw [marked, List.flatten_cons] at hsorted hgap
    rw [Contiguous]
    cases ha : fd call len with
    | error e =>
      simp only [ha] at h
      exact absurd trivial h
    | done k =>
      simp only [ha] at h hsorted hgap
      obtain ⟨-, hrest, hcross⟩ := List.pairwise_append.mp hsorted
      refine ⟨fun hg => ?_, ih h hrest (fun hg => ?_) _⟩
      · by_contra hk
        exact hgap hg (by simp [hk])
      · intro hmem
        rw [Bool.or_eq_true, decide_eq_true_iff] at hg
        rcases hg with hg | hlt
        · exact hgap hg (List.mem_append_right _ hmem)
        · have hone : (1 : UInt8) ∈ List.replicate (k : ℕ) 0 ++ List.replicate (len - k) 1 := by
            refine List.mem_append_right _ (List.mem_replicate.mpr ⟨?_, rfl⟩)
            omega
          exact absurd (hcross 1 hone 0 hmem rfl) (by decide)

theorem pairwise_of_take {l : List UInt8} {n : ℕ} (htake : ∀ a ∈ l.take n, a = 0)
    (hdrop : 0 ∉ l.drop n) : l.Pairwise fun a b => b = 0 → a = 0 := by
  rw [← List.take_append_drop n l, List.pairwise_append]
  exact ⟨List.pairwise_of_forall_mem_list fun a ha _ _ _ => htake a ha,
    List.pairwise_of_forall_mem_list fun _ _ b hb h0 => absurd (h0 ▸ hb) hdrop,
    fun a ha _ _ _ => htake a ha⟩

theorem readvFrom_ret_neg_iff (h0 : 0 ≤ len) :
    (readvFrom fd stream call len pos iov).ret < 0 ↔ Fails fd call (iov.map List.length) := by
  induction iov generalizing call len pos with
  | nil => simp [readvFrom, Fails, h0]
  | cons buf iov ih =>
    rw [readvFrom, List.map_cons, Fails]
    cases fd call buf.length with
    | error e => simp [Int.negSucc_lt_zero]
    | done k => exact ih (by omega)

theorem readvFrom_consumed :
    (readvFrom fd stream call len pos iov).consumed =
      pos + total fd call (iov.map List.length) := by
  induction iov generalizing call len pos with
  | nil => rfl
  | cons buf iov ih =>
    rw [readvFrom, List.map_cons, total]
    cases fd call buf.length with
    | error e => rfl
    | done k =>
      simp only [ih]
      omega

theorem readvFrom_done {n : ℕ} {a : Fin (n + 1)} (hlen : buf.length = n)
    (ha : fd call n = .done a) :
    (readvFrom fd stream call len pos (buf :: iov)).buffers = fill stream pos buf a ::
      (readvFrom fd stream (call + 1) (len + a) (pos + a) iov).buffers := by
  subst hlen
  rw [readvFrom, ha]

theorem writevFrom_error {n e : ℕ} (hlen : buf.length = n) (ha : fd call n = .error e) :
    (writevFrom fd call len (buf :: iov)).accepted = [] := by
  subst hlen
  rw [writevFrom, ha]

theorem writevFrom_done {n : ℕ} {a : Fin (n + 1)} (hlen : buf.length = n)
    (ha : fd call n = .done a) :
    (writevFrom fd call len (buf :: iov)).accepted =
      buf.take a ++ (writevFrom fd (call + 1) (len + a) iov).accepted := by
  subst hlen
  rw [writevFrom, ha]

theorem fill_length (hk : k ≤ buf.length) : (fill stream pos buf k).length = buf.length := by
  simp [fill]
  omega

theorem readvFrom_length (call : ℕ) (len : ℤ) (pos : ℕ) :
    (readvFrom fd stream call len pos iov).buffers.flatten.length = iov.flatten.length ∧
      (readvFrom fd stream call len pos iov).consumed ≤ pos + iov.flatten.length := by
  induction iov generalizing call len pos with
  | nil => exact ⟨rfl, Nat.le_refl _⟩
  | cons buf iov ih =>
    rw [readvFrom]
    cases fd call buf.length with
    | error e => exact ⟨rfl, Nat.le_add_right _ _⟩
    | done k =>
      have hk := Nat.lt_succ_iff.mp k.isLt
      obtain ⟨hlen, hle⟩ := ih (call + 1) (len + k) (pos + k)
      simp only [List.flatten_cons, List.length_append, fill_length hk, hlen, true_and]
      omega

/-- What a contiguous call of `readv` does. -/
theorem readv_of_contiguous (h : Contiguous fd false 0 0 (iov.map List.length))
    (stream : ℕ → UInt8) :
    (readv fd stream iov).buffers.flatten.length = iov.flatten.length ∧
      ((readv fd stream iov).ret < 0 ∧ (readv fd stream iov).consumed = 0 ∨
        ∃ n ≤ iov.flatten.length, (readv fd stream iov).ret = (n : ℕ) ∧
          (readv fd stream iov).consumed = n ∧
          (readv fd stream iov).buffers.flatten = fill stream 0 iov.flatten n) := by
  obtain ⟨hlength, hle⟩ : (readv fd stream iov).buffers.flatten.length = iov.flatten.length ∧
    (readv fd stream iov).consumed ≤ 0 + iov.flatten.length := readvFrom_length 0 0 0
  refine ⟨hlength, ?_⟩
  obtain ⟨hneg, -, hcons⟩ | ⟨n, hret, hcons, hfill, -⟩ :=
    @readvFrom_of_contiguous fd stream iov false 0 0 h 0 0
  · exact .inl ⟨hneg, hcons⟩
  · rw [Int.zero_add] at hret
    rw [Nat.zero_add] at hcons hle
    exact .inr ⟨n, hcons ▸ hle, hret, hcons, hfill⟩

theorem readvFrom_marked (h : ¬ Fails fd call lens) :
    (readvFrom fd (fun _ => 0) call len pos (lens.map (.replicate · 1))).buffers =
      marked fd call lens := by
  induction lens generalizing call len pos with
  | nil => rfl
  | cons n lens ih =>
    rw [Fails] at h
    rw [List.map_cons, marked]
    cases ha : fd call n with
    | error e =>
      simp only [ha] at h
      exact absurd trivial h
    | done k =>
      simp only [ha] at h
      rw [readvFrom_done List.length_replicate ha, ih h]
      simp [fill, List.map_const']

theorem writevFrom_ret_neg_iff (h0 : 0 ≤ len) :
    (writevFrom fd call len iov).ret < 0 ↔ Fails fd call (iov.map List.length) := by
  induction iov generalizing call len with
  | nil => simp [writevFrom, Fails, h0]
  | cons buf iov ih =>
    rw [writevFrom, List.map_cons, Fails]
    cases fd call buf.length with
    | error e => simp [Int.negSucc_lt_zero]
    | done k => exact ih (by omega)

theorem writevFrom_accepted_length :
    (writevFrom fd call len iov).accepted.length = total fd call (iov.map List.length) := by
  induction iov generalizing call len with
  | nil => rfl
  | cons buf iov ih =>
    rw [writevFrom, List.map_cons, total]
    cases fd call buf.length with
    | error e => rfl
    | done k =>
      have hk := k.isLt
      simp [ih]
      omega

theorem writevFrom_marked :
    ∀ a ∈ (writevFrom fd call len (marked fd call lens)).accepted, a = 0 := by
  induction lens generalizing call len with
  | nil => simp [marked, writevFrom]
  | cons n lens ih =>
    have hlen := map_length_marked fd call (n :: lens)
    rw [marked, List.map_cons, List.cons.injEq] at hlen
    intro a hmem
    rw [marked] at hmem
    cases ha : fd call n with
    | error e =>
      rw [writevFrom_error hlen.1 ha] at hmem
      exact absurd hmem List.not_mem_nil
    | done k =>
      rw [writevFrom_done hlen.1 ha, ha, List.mem_append] at hmem
      rcases hmem with hmem | hmem
      · rw [List.take_left' List.length_replicate] at hmem
        exact List.eq_of_mem_replicate hmem
      · exact ih a hmem

theorem count_marked (h : ¬ Fails fd call lens) :
    (marked fd call lens).flatten.count 0 = total fd call lens := by
  induction lens generalizing call with
  | nil => rfl
  | cons n lens ih =>
    rw [Fails] at h
    rw [marked, total, List.flatten_cons, List.count_append]
    cases ha : fd call n with
    | error e =>
      simp only [ha] at h
      exact absurd trivial h
    | done k =>
      simp only [ha] at h
      simp [ih h, List.count_replicate]

theorem readsInOrder_of_contiguous (h : Contiguous fd false 0 0 lens) :
    ReadsInOrder fd lens := by
  rintro stream iov rfl
  rw [readv]
  obtain ⟨hret, -, hpos⟩ | ⟨n, hret, hpos, hbuf, -⟩ := readvFrom_of_contiguous h 0 0
  · exact ⟨fun h0 => absurd hret (Int.not_lt.mpr h0), fun _ => hpos⟩
  · rw [Int.zero_add] at hret
    rw [Nat.zero_add] at hpos
    rw [hret, hpos]
    exact ⟨fun _ => ⟨rfl, hbuf⟩, fun hneg => absurd hneg (by omega)⟩

theorem writesInOrder_of_contiguous (h : Contiguous fd false 0 0 lens) :
    WritesInOrder fd lens := by
  rintro iov rfl
  rw [writev]
  obtain ⟨hret, -, hacc⟩ | ⟨n, hret, hle, hacc, -⟩ := writevFrom_of_contiguous h 0
  · exact ⟨fun h0 => absurd hret (Int.not_lt.mpr h0), fun _ => hacc⟩
  · have hlen : (iov.flatten.take n).length = n := List.length_take_of_le hle
    rw [Int.zero_add] at hret
    rw [hret, hacc, hlen]
    exact ⟨fun _ => ⟨rfl, rfl⟩, fun hneg => absurd hneg (by omega)⟩

theorem map_length_ones (lens : List ℕ) :
    (lens.map fun n => List.replicate n (1 : UInt8)).map List.length = lens := by
  simp [Function.comp_def]

theorem fill_zeros_pairwise (lens : List ℕ) (n : ℕ) :
    (fill (fun _ => 0) 0 (lens.map fun n => List.replicate n 1).flatten n).Pairwise
      fun a b => b = 0 → a = 0 := by
  have hzero : ∀ a ∈ (List.range n).map fun _ => (0 : UInt8), a = 0 := by simp
  have hone : ∀ b ∈ (lens.map fun n => List.replicate n (1 : UInt8)).flatten.drop n, b ≠ 0 := by
    intro b hb h0
    obtain ⟨l, hl, hbl⟩ := List.mem_flatten.mp (List.mem_of_mem_drop hb)
    obtain ⟨n, -, rfl⟩ := List.mem_map.mp hl
    exact absurd (h0.symm.trans (List.eq_of_mem_replicate hbl)) (by decide)
  rw [fill, List.pairwise_append]
  exact ⟨List.pairwise_of_forall_mem_list fun a ha _ _ _ => hzero a ha,
    List.pairwise_of_forall_mem_list fun _ _ b hb h0 => absurd h0 (hone b hb),
    fun a ha _ _ _ => hzero a ha⟩

theorem contiguous_of_readsInOrder (h : ReadsInOrder fd lens) :
    Contiguous fd false 0 0 lens := by
  -- a stream of zeros into buffers of ones
  have hones := map_length_ones lens
  obtain ⟨hok, hneg⟩ := h (fun _ => 0) _ hones
  have hiff : (readv fd (fun _ => 0) (lens.map fun n => List.replicate n 1)).ret < 0 ↔
      Fails fd 0 lens := by
    rw [readv, readvFrom_ret_neg_iff (Int.le_refl 0), hones]
  by_cases hf : Fails fd 0 lens
  · have h0 := hneg (hiff.mpr hf)
    rw [readv, readvFrom_consumed, hones, Nat.zero_add] at h0
    exact contiguous_of_fails hf h0
  · obtain ⟨-, hbuf⟩ := hok (Int.not_lt.mp (mt hiff.mp hf))
    rw [readv, readvFrom_marked hf] at hbuf
    refine contiguous_of_marked hf ?_ (fun hg => absurd hg Bool.false_ne_true) 0
    rw [hbuf]
    exact fill_zeros_pairwise lens _

theorem contiguous_of_writesInOrder (h : WritesInOrder fd lens) :
    Contiguous fd false 0 0 lens := by
  have hlen := map_length_marked fd 0 lens
  obtain ⟨hok, hneg⟩ := h _ hlen
  have hiff : (writev fd (marked fd 0 lens)).ret < 0 ↔ Fails fd 0 lens := by
    rw [writev, writevFrom_ret_neg_iff (Int.le_refl 0), hlen]
  have htotal : (writev fd (marked fd 0 lens)).accepted.length = total fd 0 lens := by
    rw [writev, writevFrom_accepted_length, hlen]
  by_cases hf : Fails fd 0 lens
  · have h0 := hneg (hiff.mpr hf)
    rw [h0] at htotal
    exact contiguous_of_fails hf htotal.symm
  · obtain ⟨-, hacc⟩ := hok (Int.not_lt.mp (mt hiff.mp hf))
    rw [htotal] at hacc
    have hzero : ∀ a ∈ (marked fd 0 lens).flatten.take (total fd 0 lens), a = 0 := fun a ha =>
      writevFrom_marked a (hacc ▸ ha)
    refine contiguous_of_marked hf (pairwise_of_take hzero fun hmem => ?_)
      (fun hg => absurd hg Bool.false_ne_true) 0
    -- the zeros in front are all that are counted
    have hfront : ((marked fd 0 lens).flatten.take (total fd 0 lens)).count 0 =
        total fd 0 lens := by
      rw [List.count_eq_length.mpr fun a ha => (hzero a ha).symm, ← hacc, htotal]
    have hcount := count_marked hf
    rw [← List.take_append_drop (total fd 0 lens) (marked fd 0 lens).flatten, List.count_append,
      hfront] at hcount
    have hpos := List.count_pos_iff.mpr hmem
    omega

/-- Vectored reads and writes keep the byte stream exactly if no call transfers anything after
one that has transferred less than was asked for, and none fails after something has been
transferred. -/
theorem readv_writev_inOrder_iff (fd : Descriptor) (lens : List ℕ) :
    (ReadsInOrder fd lens ↔ Contiguous fd false 0 0 lens) ∧
    (WritesInOrder fd lens ↔ Contiguous fd false 0 0 lens) :=
  ⟨⟨contiguous_of_readsInOrder, readsInOrder_of_contiguous⟩,
    ⟨contiguous_of_writesInOrder, writesInOrder_of_contiguous⟩⟩

/-- Two buffers of two bytes, and a descriptor that transfers one byte in every call. -/
theorem not_forall_inOrder :
    (¬ ∀ (fd : Descriptor) (lens : List ℕ), ReadsInOrder fd lens) ∧
    ¬ ∀ (fd : Descriptor) (lens : List ℕ), WritesInOrder fd lens := by
  constructor
  · intro h
    have hread := (h (fun _ len => .done ⟨min 1 len, by omega⟩) [2, 2] (fun _ => 7)
      [[0, 0], [0, 0]] rfl).1
    revert hread
    decide
  · intro h
    have hwrite := (h (fun _ len => .done ⟨min 1 len, by omega⟩) [2, 2] [[0, 1], [2, 3]] rfl).1
    revert hwrite
    decide

end Koerix.Vectored
