import Mathlib.Algebra.Group.Nat.Defs
import Mathlib.Logic.Function.Iterate
import Koerix.Sync.Cpu

/-! # Sleeping for a time

`nanosleep` turns a time into ticks of the timer, which come every 20 ms, and the tick at which
the task is to be woken into a number that may exceed its type. The scheduler asks whether that
tick has passed.
-/

namespace Koerix

/-- What `schedulable` looks at; `-1` stands for no time. -/
structure Sleeper where
  timerTicks : UInt64
  state : TaskState
  wakeUpAt : UInt64
  deriving DecidableEq

structure Timespec where
  tvSec : Int64
  tvNsec : Int64
  deriving DecidableEq

namespace Sleeper

def tick (s : Sleeper) : Sleeper := { s with timerTicks := s.timerTicks + 1 }

/-- `Task::sleepTicks`, with the timer interrupts between its two assignments. -/
def sleepTicks (s : Sleeper) (timerTicks : UInt64) (between : ℕ) : Sleeper :=
  let s := { s with wakeUpAt := s.timerTicks + timerTicks }
  let s := tick^[between] s
  { s with state := .sleeping }

/-- `sys_nanosleep`. -/
def nanosleep (s : Sleeper) (req : Timespec) (between : ℕ) : Sleeper :=
  let ticks := (req.tvSec * 50 + req.tvNsec / 20000000).toUInt64
  s.sleepTicks ticks between

/-- `Task::schedulable`. -/
def schedulable (s : Sleeper) : Sleeper × Bool :=
  let s := if s.state = .sleeping ∧ s.wakeUpAt < s.timerTicks then
      { s with state := .running, wakeUpAt := -1 }
    else s
  (s, s.state = .running)

/-- A tick of the timer, or the scheduler asks. -/
inductive Event
  | tick
  | query
  deriving DecidableEq

/-- Some events, and the answers to the questions. -/
def run : Sleeper → List Event → Sleeper × List Bool
  | s, [] => (s, [])
  | s, .tick :: es => run s.tick es
  | s, .query :: es =>
    let (s, b) := s.schedulable
    let (s, bs) := run s es
    (s, b :: bs)

/-- The time asked for in ticks of the timer, rounded up. -/
def requiredTicks (req : Timespec) : ℕ :=
  (req.tvSec.toInt.toNat * 1000000000 + req.tvNsec.toInt.toNat + 19999999) / 20000000

/-- The number of ticks that are added to the tick counter, if the type were large enough. -/
def sleptTicks (req : Timespec) : ℕ :=
  req.tvSec.toInt.toNat * 50 + req.tvNsec.toInt.toNat / 20000000

/-- The first time that the answer is yes there have been so many ticks since the call. -/
def NeverEarly (s : Sleeper) (req : Timespec) : Prop :=
  ∀ between es, (∀ b ∈ ((s.nanosleep req between).run es).2, b = false) →
    ((s.nanosleep req between).run es).1.schedulable.2 = true →
      requiredTicks req ≤ between + es.count .tick

variable {s : Sleeper} {req : Timespec}

theorem iterate_tick (s : Sleeper) (n : ℕ) :
    tick^[n] s = { s with timerTicks := s.timerTicks + .ofNat n } := by
  induction n generalizing s with
  | zero => simp
  | succ n ih =>
    rw [Function.iterate_succ_apply, ih]
    simp only [tick, mk.injEq, and_true]
    rw [UInt64.ofNat_add, UInt64.add_assoc, UInt64.add_comm 1]
    rfl

theorem schedulable_of_sleeping (h : s.state = .sleeping) :
    s.schedulable.2 = decide (s.wakeUpAt < s.timerTicks) := by
  by_cases hlt : s.wakeUpAt < s.timerTicks
  · simp [schedulable, h, hlt]
  · simp [schedulable, h, hlt]

theorem run_of_asleep (h : s.state = .sleeping) (es : List Event)
    (hno : ∀ b ∈ (s.run es).2, b = false) : (s.run es).1 = tick^[es.count .tick] s := by
  induction es generalizing s with
  | nil => rfl
  | cons e es ih =>
    cases e with
    | tick =>
      rw [List.count_cons_self, Function.iterate_succ_apply]
      exact ih h hno
    | query =>
      have hb : s.schedulable.2 = false := hno _ List.mem_cons_self
      have hsame : s.schedulable.1 = s := by
        rw [schedulable_of_sleeping h, decide_eq_false_iff_not] at hb
        rw [schedulable]
        exact if_neg fun hc => hb hc.2
      have hrun : s.run (.query :: es) =
          ((s.schedulable.1.run es).1, s.schedulable.2 :: (s.schedulable.1.run es).2) := rfl
      rw [hrun, hsame] at hno
      rw [hrun, hsame, List.count_cons_of_ne (by decide)]
      exact ih h fun b hb => hno b (List.mem_cons_of_mem _ hb)

theorem run_ticks (s : Sleeper) (n : ℕ) : s.run (.replicate n .tick) = (tick^[n] s, []) := by
  induction n generalizing s with
  | zero => rfl
  | succ n ih => exact ih s.tick

theorem toNat_of_nonneg {x : Int64} (h : 0 ≤ x.toInt) :
    x.toBitVec.msb = false ∧ x.toBitVec.toNat = x.toInt.toNat := by
  have hmsb : x.toBitVec.msb = false := by
    rw [BitVec.msb_eq_toInt]
    exact decide_eq_false (Int.not_lt.mpr h)
  have hint : x.toInt = x.toBitVec.toNat := BitVec.toInt_eq_toNat_of_msb hmsb
  exact ⟨hmsb, by omega⟩

theorem toNat_ticks (hsec : 0 ≤ req.tvSec.toInt) (hnsec : 0 ≤ req.tvNsec.toInt) :
    (req.tvSec * 50 + req.tvNsec / 20000000).toUInt64.toNat = sleptTicks req % 2 ^ 64 := by
  obtain ⟨-, hs⟩ := toNat_of_nonneg hsec
  obtain ⟨hmsb, hn⟩ := toNat_of_nonneg hnsec
  have hdiv : req.tvNsec.toBitVec.sdiv 20000000 = req.tvNsec.toBitVec.udiv 20000000 := by
    rw [BitVec.sdiv_eq, hmsb]
    rfl
  have hlit : (20000000 : BitVec 64).toNat = 20000000 := rfl
  have hfifty : (50 : BitVec 64).toNat = 50 := rfl
  calc (req.tvSec.toBitVec * 50 + req.tvNsec.toBitVec.sdiv 20000000).toNat
      = ((req.tvSec.toInt.toNat * 50) % 2 ^ 64 + req.tvNsec.toInt.toNat / 20000000) % 2 ^ 64 := by
        rw [hdiv, BitVec.toNat_add, BitVec.toNat_mul, BitVec.udiv_eq, BitVec.toNat_udiv, hs, hn,
          hlit, hfifty]
    _ = sleptTicks req % 2 ^ 64 := Nat.mod_add_mod _ _ _

theorem state_nanosleep (s : Sleeper) (req : Timespec) (between : ℕ) :
    (s.nanosleep req between).state = .sleeping := rfl

theorem schedulable_iterate_tick (hsec : 0 ≤ req.tvSec.toInt) (hnsec : 0 ≤ req.tvNsec.toInt)
    (between n : ℕ) : (tick^[n] (s.nanosleep req between)).schedulable.2 = true ↔
      (s.timerTicks.toNat + sleptTicks req) % 2 ^ 64 <
        (s.timerTicks.toNat + (between + n)) % 2 ^ 64 := by
  have hstate : (tick^[n] (s.nanosleep req between)).state = .sleeping := by
    rw [iterate_tick, state_nanosleep]
  rw [schedulable_of_sleeping hstate, decide_eq_true_iff, UInt64.lt_iff_toNat_lt]
  have hwake : (tick^[n] (s.nanosleep req between)).wakeUpAt.toNat =
      (s.timerTicks.toNat + sleptTicks req) % 2 ^ 64 := by
    simp only [iterate_tick, nanosleep, sleepTicks]
    rw [UInt64.toNat_add, toNat_ticks hsec hnsec, Nat.add_mod_mod]
  have hticks : (tick^[n] (s.nanosleep req between)).timerTicks.toNat =
      (s.timerTicks.toNat + (between + n)) % 2 ^ 64 := by
    simp only [iterate_tick, nanosleep, sleepTicks]
    rw [UInt64.toNat_add, UInt64.toNat_add, UInt64.toNat_ofNat', UInt64.toNat_ofNat']
    omega
  rw [hwake, hticks]

/-- The task is never woken early if and only if the tick of its wake-up fits its type, or is the
number that stands for no time. -/
theorem neverEarly_iff (s : Sleeper) (req : Timespec) (hsec : 0 ≤ req.tvSec.toInt)
    (hnsec : 0 ≤ req.tvNsec.toInt) :
    NeverEarly s req ↔ s.timerTicks.toNat + sleptTicks req < 2 ^ 64 ∨
      (s.timerTicks.toNat + sleptTicks req) % 2 ^ 64 = 2 ^ 64 - 1 := by
  have hround : sleptTicks req ≤ requiredTicks req ∧ requiredTicks req ≤ sleptTicks req + 1 := by
    unfold requiredTicks sleptTicks
    omega
  have ht := s.timerTicks.toNat_lt
  constructor
  · intro h
    by_contra hover
    rw [not_or] at hover
    obtain ⟨wake, hwake⟩ : ∃ wake, wake = (s.timerTicks.toNat + sleptTicks req) % 2 ^ 64 := ⟨_, rfl⟩
    -- the first tick at which the answer is yes
    have hearly := h 0 (.replicate (wake + 1 - s.timerTicks.toNat) .tick)
    rw [run_ticks, schedulable_iterate_tick hsec hnsec, ← hwake,
      List.count_replicate_self] at hearly
    have hfew := hearly (by simp) (by omega)
    omega
  · intro hfit between es hno hyes
    rw [run_of_asleep (state_nanosleep s req between) es hno,
      schedulable_iterate_tick hsec hnsec] at hyes
    by_contra hfew
    rcases hfit with hfit | hmarker
    · rw [Nat.mod_eq_of_lt hfit, Nat.mod_eq_of_lt (by omega)] at hyes
      omega
    · have := Nat.mod_lt (s.timerTicks.toNat + (between + es.count .tick)) (by decide : 0 < 2 ^ 64)
      omega

/-- A task that has run for a while. -/
def awake (timerTicks : UInt64) : Sleeper := ⟨timerTicks, .running, -1⟩

/-- Half a second and a bit at tick 1000. -/
theorem neverEarly_half :
    requiredTicks ⟨0, 500000001⟩ = 26 ∧ (awake 1000).NeverEarly ⟨0, 500000001⟩ :=
  ⟨by decide,
    (neverEarly_iff (awake 1000) ⟨0, 500000001⟩ (by decide) (by decide)).mpr (.inl (by decide))⟩

/-- Some twelve billion years, which are no time at all. -/
theorem not_forall_neverEarly : ¬ ∀ (s : Sleeper) (req : Timespec), 0 ≤ req.tvSec.toInt →
    0 ≤ req.tvNsec.toInt → req.tvNsec.toInt < 1000000000 → s.NeverEarly req := by
  intro h
  have hearly := h (awake 1000) ⟨368934881474191032, 0⟩ (by decide) (by decide) (by decide) 0 []
    nofun (by decide)
  exact absurd hearly (by decide)

end Sleeper

end Koerix
