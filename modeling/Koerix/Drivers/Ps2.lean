import Mathlib.Data.Nat.Find

/-! # Identification of PS/2 devices

The driver polls the controller for the bytes of a response, and gives up after ten polls. The
counter of the attempts left is tested when the loop has ended; by then the loop has counted it
down once more, from zero to its largest value if no poll has seen a byte, and to zero if the
last one has.
-/

namespace Koerix.Ps2

/-- What the controller presents at its status and data ports. -/
structure Ports where
  status : UInt8
  data : UInt8

/-- The lowest bit of the status register. -/
def Ports.outBufferFull (p : Ports) : Bool := p.status &&& 1 = 1

/-- `PS2DeviceTypes`. -/
inductive DeviceType
  | keyboard
  | keyboardMf2
  | mouse
  | mouseScroll
  | mouse5Button
  | other
  deriving DecidableEq, Repr

/-- The loop of `ps2WaitForByteTimeout`, from the `t`-th access to a port on: `attempts`, and the
number of the next access. -/
def poll (io : ℕ → Ports) : ℕ → ℕ → UInt64 × ℕ
  | 0, t => (0 - 1, t)
  | attempts + 1, t =>
    if (io t).outBufferFull then (.ofNat attempts, t + 1) else poll io attempts (t + 1)

/-- `ps2WaitForByteTimeout`: the byte, if it returns true. -/
def waitForByteTimeout (io : ℕ → Ports) (t : ℕ) : Option UInt8 × ℕ :=
  let (attempts, t) := poll io 10 t
  if attempts = 0 then (none, t) else (some (io t).data, t + 1)

/-- `ps2WaitForAck`, which polls as long as it takes; none if that is longer than so many
polls. -/
def waitForAck (io : ℕ → Ports) : ℕ → ℕ → Option (Bool × ℕ)
  | 0, _ => none
  | fuel + 1, t =>
    if (io t).outBufferFull then some ((io (t + 1)).data == 0xfa, t + 2)
    else waitForAck io fuel (t + 1)

/-- The loop of `ps2Identify`: the response. -/
def response (io : ℕ → Ports) : ℕ → ℕ → List UInt8
  | 0, _ => []
  | maxBytes + 1, t =>
    match waitForByteTimeout io t with
    | (none, _) => []
    | (some c, t) => c :: response io maxBytes t

/-- The device that a response stands for. -/
def deviceOf : List UInt8 → DeviceType
  | [] => .keyboard
  | [c] =>
    if c = 0x00 then .mouse
    else if c = 0x03 then .mouseScroll
    else if c = 0x04 then .mouse5Button
    else .other
  | c :: d :: _ => if c = 0xab ∧ d = 0x83 then .keyboardMf2 else .other

/-- The response that `ps2Identify` goes by. -/
def identifyResponse (io : ℕ → Ports) (fuel t : ℕ) : Option (List UInt8) :=
  (waitForAck io fuel t).map fun (_, t) => response io 2 t

/-- `ps2Identify`. -/
def identify (io : ℕ → Ports) (fuel t : ℕ) : Option DeviceType :=
  (identifyResponse io fuel t).map deviceOf

/-- The byte that arrives within so many polls: it is read when a poll has seen it. -/
def arrival (io : ℕ → Ports) : ℕ → ℕ → Option UInt8 × ℕ
  | 0, t => (none, t)
  | polls + 1, t =>
    if (io t).outBufferFull then (some (io (t + 1)).data, t + 2) else arrival io polls (t + 1)

/-- The bytes that arrive one after the other, each within ten polls. -/
def arrivals (io : ℕ → Ports) : ℕ → ℕ → List UInt8
  | 0, _ => []
  | maxBytes + 1, t =>
    match arrival io 10 t with
    | (none, _) => []
    | (some c, t) => c :: arrivals io maxBytes t

/-- One of the first nine polls sees a byte. -/
def Early (io : ℕ → Ports) (t : ℕ) : Prop := ∃ k < 9, (io (t + k)).outBufferFull = true

variable {io : ℕ → Ports} {n t k fuel : ℕ}

theorem poll_eq (hk : k < n) (hbefore : ∀ j < k, (io (t + j)).outBufferFull = false)
    (hfull : (io (t + k)).outBufferFull = true) :
    poll io n t = (.ofNat (n - 1 - k), t + k + 1) ∧
      arrival io n t = (some (io (t + k + 1)).data, t + k + 2) := by
  induction n generalizing t k with
  | zero => omega
  | succ n ih =>
    cases k with
    | zero => simp [poll, arrival, show (io t).outBufferFull = true from hfull]
    | succ k =>
      have hfirst : (io t).outBufferFull = false := hbefore 0 (by omega)
      have hstep : ∀ j, t + 1 + j = t + (j + 1) := by omega
      obtain ⟨hp, ha⟩ := ih (t := t + 1) (k := k) (by omega)
        (fun j hj => by rw [hstep]; exact hbefore (j + 1) (by omega)) (by rw [hstep]; exact hfull)
      rw [poll, arrival, hfirst, if_neg Bool.false_ne_true, if_neg Bool.false_ne_true, hp, ha,
        hstep, show n - 1 - k = n + 1 - 1 - (k + 1) by omega]
      exact ⟨rfl, rfl⟩

theorem poll_eq_of_silent (hsilent : ∀ k < n, (io (t + k)).outBufferFull = false) :
    poll io n t = (0 - 1, t + n) ∧ arrival io n t = (none, t + n) := by
  induction n generalizing t with
  | zero => exact ⟨rfl, rfl⟩
  | succ n ih =>
    have hfirst : (io t).outBufferFull = false := hsilent 0 (by omega)
    have hstep : ∀ j, t + 1 + j = t + (j + 1) := by omega
    obtain ⟨hp, ha⟩ := ih (t := t + 1) fun j hj => by rw [hstep]; exact hsilent (j + 1) (by omega)
    rw [poll, arrival, hfirst, if_neg Bool.false_ne_true, if_neg Bool.false_ne_true, hp, ha, hstep]
    exact ⟨rfl, rfl⟩

/-- A byte that comes early is delivered. Otherwise a byte is delivered if and only if none has
come. -/
theorem waitForByteTimeout_cases (io : ℕ → Ports) (t : ℕ) :
    (Early io t ∧ ∃ c t', waitForByteTimeout io t = (some c, t') ∧
      arrival io 10 t = (some c, t')) ∨
      ¬ Early io t ∧ ((waitForByteTimeout io t).1 = none ↔ (arrival io 10 t).1 ≠ none) := by
  by_cases hsilent : ∀ k < 10, (io (t + k)).outBufferFull = false
  · obtain ⟨hp, ha⟩ := poll_eq_of_silent hsilent
    refine .inr ⟨?_, ?_⟩
    · rintro ⟨k, hk, hfull⟩
      rw [hsilent k (by omega)] at hfull
      cases hfull
    · have hleft : (0 - 1 : UInt64) ≠ 0 := by decide
      rw [ha, waitForByteTimeout, hp]
      simp only [if_neg hleft, reduceCtorEq, ne_eq, not_true_eq_false]
  · have hexists : ∃ k, k < 10 ∧ (io (t + k)).outBufferFull = true := by
      by_contra hnone
      exact hsilent fun k hk => (Bool.not_eq_true _).mp fun hfull => hnone ⟨k, hk, hfull⟩
    obtain ⟨hk, hfull⟩ := Nat.find_spec hexists
    have hbefore : ∀ j < Nat.find hexists, (io (t + j)).outBufferFull = false := by
      intro j hj
      have hj10 : j < 10 := by omega
      exact (Bool.not_eq_true _).mp fun hfull => Nat.find_min hexists hj ⟨hj10, hfull⟩
    obtain ⟨hp, ha⟩ := poll_eq hk hbefore hfull
    generalize Nat.find hexists = k at hk hfull hbefore hp ha
    by_cases hlast : k = 9
    · -- the last poll has left no attempt
      subst hlast
      refine .inr ⟨?_, ?_⟩
      · rintro ⟨j, hj, hfull'⟩
        rw [hbefore j hj] at hfull'
        cases hfull'
      · rw [ha, waitForByteTimeout, hp]
        simp
    · have hleft : UInt64.ofNat (10 - 1 - k) ≠ 0 := by
        intro hz
        have hnat := congrArg UInt64.toNat hz
        rw [UInt64.toNat_ofNat', UInt64.toNat_zero, Nat.mod_eq_of_lt (by omega)] at hnat
        omega
      refine .inl ⟨⟨k, by omega, hfull⟩, _, _, ?_, ha⟩
      rw [waitForByteTimeout, hp]
      exact if_neg hleft

theorem waitForByteTimeout_iff :
    (waitForByteTimeout io t).1 = (arrival io 10 t).1 ↔ Early io t := by
  obtain ⟨hearly, c, t', hw, ha⟩ | ⟨hnot, hiff⟩ := waitForByteTimeout_cases io t
  · exact iff_of_true (by rw [hw, ha]) hearly
  · refine iff_of_false (fun heq => ?_) hnot
    rw [heq] at hiff
    exact (iff_not_self hiff).elim

theorem response_succ_iff (n t : ℕ) : response io (n + 1) t = arrivals io (n + 1) t ↔
    Early io t ∧ response io n (arrival io 10 t).2 = arrivals io n (arrival io 10 t).2 := by
  rw [response, arrivals]
  obtain ⟨hearly, c, t', hw, ha⟩ | ⟨hnot, hiff⟩ := waitForByteTimeout_cases io t
  · simp only [hw, ha, List.cons.injEq, true_and, hearly]
  · refine iff_of_false (fun heq => ?_) fun h => hnot h.1
    rcases hw : waitForByteTimeout io t with ⟨_ | c, t₁⟩ <;>
      rcases ha : arrival io 10 t with ⟨_ | d, t₂⟩ <;> rw [hw, ha] at heq hiff
    · simp at hiff
    · cases heq
    · cases heq
    · simp at hiff

/-- The response that is right. -/
def sentResponse (io : ℕ → Ports) (fuel t : ℕ) : Option (List UInt8) :=
  (waitForAck io fuel t).map fun (_, t) => arrivals io 2 t

/-- The wait and the identification go by what has arrived if and only if it is early: both bytes
of the response within nine polls each, since the acknowledgement and the byte before. -/
theorem identify_iff_early (io : ℕ → Ports) (fuel t : ℕ) :
    ((waitForByteTimeout io t).1 = (arrival io 10 t).1 ↔ Early io t) ∧
    (identifyResponse io fuel t = sentResponse io fuel t ↔
      ∀ ack t', waitForAck io fuel t = some (ack, t') →
        Early io t' ∧ Early io (arrival io 10 t').2) := by
  refine ⟨waitForByteTimeout_iff, ?_⟩
  rw [identifyResponse, sentResponse]
  cases hack : waitForAck io fuel t with
  | none => exact iff_of_true rfl nofun
  | some r =>
    have hresponse : response io 2 r.2 = arrivals io 2 r.2 ↔
        Early io r.2 ∧ Early io (arrival io 10 r.2).2 := by
      rw [response_succ_iff, response_succ_iff, response, arrivals, and_iff_left rfl]
    rw [Option.map_some, Option.map_some, Option.some.injEq, hresponse]
    constructor
    · rintro h ack t' he
      cases he
      exact h
    · exact fun h => h r.1 r.2 rfl

/-- A keyboard that acknowledges and sends nothing more; the data port repeats the last byte. -/
def ackOnly (t : ℕ) : Ports := ⟨if t = 0 then 1 else 0, 0xfa⟩

/-- The driver takes the acknowledgement for a response of two bytes. -/
theorem not_forall_identify :
    ¬ ∀ (io : ℕ → Ports) (fuel t : ℕ), (waitForByteTimeout io t).1 = (arrival io 10 t).1 ∧
      identifyResponse io fuel t = sentResponse io fuel t := by
  intro h
  have hresponse := (h ackOnly 1 0).2
  revert hresponse
  decide

example : identify ackOnly 1 0 = some .other ∧
    (sentResponse ackOnly 1 0).map deviceOf = some .keyboard := by
  decide

end Koerix.Ps2
