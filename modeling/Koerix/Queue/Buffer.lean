import Koerix.Lib.Ring
import Koerix.Lib.Run
import Mathlib.Data.List.DropRight

/-! # The byte queue

`IQueue` keeps the newest bytes in a circular buffer with two indices and a
count. The calls below are the parts of `read` and `write` that run under the
buffer lock, one call after the other. A failed assertion is an undefined
result. The queue refines a list of bytes that a write extends and cuts to its
newest part, and from whose front a read takes.
-/

namespace Koerix

open Ring

/-- `IQueue::QUEUE_BUFFER_SIZE`. -/
def queueBufferSize : ℕ := 4096

structure IQueue where
  buffer : ℕ → UInt8
  available : ℕ
  readPtr : ℕ
  writePtr : ℕ

namespace IQueue

/-- The constructor leaves the contents of the buffer undefined. -/
def init (buffer : ℕ → UInt8) : IQueue := ⟨buffer, 0, 0, 0⟩

/-- One iteration of the loop in `read`. -/
def readByte (q : IQueue) : Option (UInt8 × IQueue) :=
  if q.readPtr < queueBufferSize then
    let c := q.buffer q.readPtr
    let readPtr := q.readPtr + 1
    let readPtr := if readPtr = queueBufferSize then 0 else readPtr
    some (c, { q with readPtr, available := q.available - 1 })
  else none

/-- The loop of `read` with room for `n` more bytes. -/
def readLoop : ℕ → IQueue → Option (List UInt8 × IQueue)
  | 0, q => some ([], q)
  | n + 1, q =>
    if 0 < q.available then do
      let (c, q) ← q.readByte
      let (cs, q) ← readLoop n q
      return (c :: cs, q)
    else some ([], q)

/-- One iteration of the loop in `write`. -/
def writeByte (q : IQueue) (c : UInt8) : Option IQueue :=
  if q.writePtr < queueBufferSize then
    let buffer := Function.update q.buffer q.writePtr c
    let writePtr := q.writePtr + 1
    let writePtr := if writePtr = queueBufferSize then 0 else writePtr
    if q.available < queueBufferSize then
      some { q with buffer, writePtr, available := q.available + 1 }
    else
      let readPtr := q.readPtr + 1
      let readPtr := if readPtr = queueBufferSize then 0 else readPtr
      some { q with buffer, writePtr, readPtr }
  else none

inductive Call
  | read (len : ℕ)
  | write (buffer : List UInt8)

/-- What a call returns: the bytes that were read, or the number of bytes written. -/
inductive Reply
  | data (bytes : List UInt8)
  | written (len : ℕ)
  deriving DecidableEq

def step (q : IQueue) : Call → Option (IQueue × Reply)
  | .read len => (readLoop len q).map fun (cs, q) => (q, .data cs)
  | .write cs => (cs.foldlM writeByte q).map fun q => (q, .written cs.length)

/-- The abstract queue: the stored bytes, oldest first. -/
def fifoStep (bytes : List UInt8) : Call → Option (List UInt8 × Reply)
  | .read len => some (bytes.drop len, .data (bytes.take len))
  | .write cs => some ((bytes ++ cs).rtake queueBufferSize, .written cs.length)

/-- The queue stores the given bytes. -/
structure Stores (q : IQueue) (bytes : List UInt8) : Prop where
  readPtr_lt : q.readPtr < queueBufferSize
  writePtr_lt : q.writePtr < queueBufferSize
  available_le : q.available ≤ queueBufferSize
  writePtr_eq : (q.readPtr + q.available) % queueBufferSize = q.writePtr
  bytes_eq : window queueBufferSize q.buffer q.readPtr q.available = bytes

variable {q q' : IQueue} {bytes cs : List UInt8} {c : UInt8} {n : ℕ}

theorem readByte_eq (h : q.readPtr < queueBufferSize) : q.readByte = some (q.buffer q.readPtr,
    { q with readPtr := next queueBufferSize q.readPtr, available := q.available - 1 }) :=
  if_pos h

theorem writeByte_eq (h : q.writePtr < queueBufferSize) (h' : q.available < queueBufferSize) :
    q.writeByte c = some
      { q with
        buffer := Function.update q.buffer q.writePtr c
        writePtr := next queueBufferSize q.writePtr
        available := q.available + 1 } :=
  (if_pos h).trans (if_pos h')

theorem writeByte_eq_of_full (h : q.writePtr < queueBufferSize)
    (h' : ¬ q.available < queueBufferSize) :
    q.writeByte c = some
      { q with
        buffer := Function.update q.buffer q.writePtr c
        writePtr := next queueBufferSize q.writePtr
        readPtr := next queueBufferSize q.readPtr } :=
  (if_pos h).trans (if_neg h')

theorem stores_init (buffer : ℕ → UInt8) : Stores (init buffer) [] :=
  ⟨Nat.succ_pos _, Nat.succ_pos _, Nat.zero_le _, rfl, rfl⟩

theorem rtake_append_rtake : (bytes.rtake n ++ cs).rtake n = (bytes ++ cs).rtake n := by
  simp only [List.rtake_eq_reverse_take_reverse, List.reverse_append, List.reverse_reverse,
    List.take_append, List.take_take]
  congr 3
  simp

namespace Stores

theorem length_eq (h : Stores q bytes) : bytes.length = q.available := by
  rw [← h.bytes_eq, length_window]

theorem readByte (h : Stores q (c :: bytes)) :
    ∃ q', q.readByte = some (c, q') ∧ Stores q' bytes := by
  obtain ⟨m, hm⟩ : ∃ m, q.available = m + 1 := ⟨bytes.length, by rw [← h.length_eq]; rfl⟩
  have hb := h.bytes_eq
  have hle := h.available_le
  have hw := h.writePtr_eq
  rw [hm, window, List.cons.injEq] at hb
  have he := readByte_eq h.readPtr_lt
  rw [hb.1] at he
  refine ⟨_, he, next_lt h.readPtr_lt, h.writePtr_lt,
    ?_, ?_, ?_⟩
  · exact (Nat.sub_le _ _).trans hle
  · dsimp only
    rw [hm, Nat.add_sub_cancel, ← hw, hm]
    exact skip_next q.readPtr m
  · dsimp only
    rw [hm, Nat.add_sub_cancel]
    exact hb.2

/-- The loop of `read` takes bytes from the front. -/
theorem readLoop (h : Stores q bytes) (n : ℕ) :
    ∃ q', IQueue.readLoop n q = some (bytes.take n, q') ∧ Stores q' (bytes.drop n) := by
  induction n generalizing q bytes with
  | zero => exact ⟨q, rfl, h⟩
  | succ n ih =>
    have hlen := h.length_eq
    cases bytes with
    | nil =>
      rw [List.length_nil] at hlen
      exact ⟨q, by rw [IQueue.readLoop, if_neg (by omega)]; rfl, h⟩
    | cons c cs =>
      rw [List.length_cons] at hlen
      obtain ⟨q₁, hq₁, h₁⟩ := h.readByte
      obtain ⟨q', hq', h'⟩ := ih h₁
      refine ⟨q', ?_, h'⟩
      rw [IQueue.readLoop, if_pos (by omega), hq₁]
      simp [hq']

theorem writeByte (h : Stores q bytes) (c : UInt8) :
    ∃ q', q.writeByte c = some q' ∧ Stores q' ((bytes ++ [c]).rtake queueBufferSize) := by
  have hlen := h.length_eq
  have hr := h.readPtr_lt
  have hw := h.writePtr_eq
  rcases Nat.lt_or_ge q.available queueBufferSize with hlt | hge
  · refine ⟨_, writeByte_eq h.writePtr_lt hlt, hr, next_lt h.writePtr_lt,
      hlt, ?_, ?_⟩
    · dsimp only
      rw [← hw]
      exact (next_skip hr q.available).symm
    · have hskip : q.writePtr = skip queueBufferSize q.readPtr q.available := hw.symm
      dsimp only
      rw [hskip, window_push hr hlt, h.bytes_eq, List.rtake, List.length_append, hlen]
      simp only [List.length_singleton]
      rw [Nat.sub_eq_zero_of_le (by omega), List.drop_zero]
  · have hfull : q.available = queueBufferSize := le_antisymm h.available_le hge
    have hsame : q.writePtr = q.readPtr := by
      rw [← hw, hfull, Nat.add_mod_right, Nat.mod_eq_of_lt hr]
    refine ⟨_, writeByte_eq_of_full h.writePtr_lt (by omega), next_lt hr,
      next_lt h.writePtr_lt, h.available_le, ?_, ?_⟩
    · dsimp only
      rw [hfull, hsame, Nat.add_mod_right]
      exact Nat.mod_eq_of_lt (next_lt hr)
    · have hb := h.bytes_eq
      rw [hfull] at hb
      dsimp only
      rw [hsame, hfull, window_push_full hr, hb, List.rtake, List.length_append, hlen, hfull,
        List.length_singleton, Nat.add_sub_cancel_left, ← List.drop_one,
        List.drop_append_of_le_length (by rw [hlen, hfull]; decide)]

/-- The loop of `write` keeps the newest bytes. -/
theorem write (h : Stores q bytes) (cs : List UInt8) :
    ∃ q', cs.foldlM IQueue.writeByte q = some q' ∧
      Stores q' ((bytes ++ cs).rtake queueBufferSize) := by
  induction cs generalizing q bytes with
  | nil =>
    refine ⟨q, rfl, ?_⟩
    rw [List.append_nil, List.rtake, Nat.sub_eq_zero_of_le (h.length_eq ▸ h.available_le)]
    exact h
  | cons c cs ih =>
    obtain ⟨q₁, hq₁, h₁⟩ := h.writeByte c
    obtain ⟨q', hq', h'⟩ := ih h₁
    refine ⟨q', by simp [hq₁, hq'], ?_⟩
    rwa [rtake_append_rtake, List.append_assoc, List.singleton_append] at h'

theorem step (h : Stores q bytes) (call : Call) : ∃ q' bytes' reply,
    q.step call = some (q', reply) ∧ fifoStep bytes call = some (bytes', reply) ∧
      Stores q' bytes' := by
  cases call with
  | read len =>
    obtain ⟨q', hq', h'⟩ := h.readLoop len
    exact ⟨q', _, _, by rw [IQueue.step, hq']; rfl, rfl, h'⟩
  | write cs =>
    obtain ⟨q', hq', h'⟩ := h.write cs
    exact ⟨q', _, _, by rw [IQueue.step, hq']; rfl, rfl, h'⟩

theorem outputs (h : Stores q bytes) (calls : List Call) : ∃ q' bytes' replies,
    Run.outputs IQueue.step q calls = some (q', replies) ∧
      Run.outputs fifoStep bytes calls = some (bytes', replies) ∧ Stores q' bytes' := by
  induction calls generalizing q bytes with
  | nil => exact ⟨q, bytes, [], rfl, rfl, h⟩
  | cons call calls ih =>
    obtain ⟨q₁, bytes₁, reply, hq₁, hb₁, h₁⟩ := h.step call
    obtain ⟨q', bytes', replies, hq', hb', h'⟩ := ih h₁
    exact ⟨q', bytes', reply :: replies, by simp [Run.outputs, hq₁, hq'],
      by simp [Run.outputs, hb₁, hb'], h'⟩

end Stores

/-- Every sequence of calls from the empty queue returns, without a failed assertion, what the
bounded queue of the newest bytes returns, and leaves the indices in step with its contents. -/
theorem queue_refines_fifo (buffer : ℕ → UInt8) (calls : List Call) : ∃ q bytes replies,
    Run.outputs step (init buffer) calls = some (q, replies) ∧
      Run.outputs fifoStep [] calls = some (bytes, replies) ∧ Stores q bytes :=
  (stores_init buffer).outputs calls

end IQueue

end Koerix
