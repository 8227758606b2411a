import Mathlib.Data.List.Basic

/-! # Register frames on the kernel stack

An interrupt pushes the registers of the interrupted task onto its kernel
stack. The stack is a function from word addresses to words.
-/

namespace Koerix

/-- `IrqContext`, lowest address first. -/
structure IrqContext where
  r15 : UInt64
  r14 : UInt64
  r13 : UInt64
  r12 : UInt64
  r11 : UInt64
  r10 : UInt64
  r9 : UInt64
  r8 : UInt64
  rdi : UInt64
  rsi : UInt64
  rdx : UInt64
  rcx : UInt64
  rbx : UInt64
  rax : UInt64
  rbp : UInt64
  irqId : UInt64
  errorId : UInt64
  rip : UInt64
  cs : UInt64
  rflags : UInt64
  rsp : UInt64
  ss : UInt64
  deriving DecidableEq

namespace IrqContext

/-- `sizeof(IrqContext)` in words. -/
def size : ℕ := 22

/-- The word offset of `instructionPtr()`. -/
def ripOffset : ℕ := 17

/-- The word offset of `returnValue()`. -/
def raxOffset : ℕ := 13

def words (c : IrqContext) : List UInt64 :=
  [c.r15, c.r14, c.r13, c.r12, c.r11, c.r10, c.r9, c.r8, c.rdi, c.rsi, c.rdx, c.rcx, c.rbx,
    c.rax, c.rbp, c.irqId, c.errorId, c.rip, c.cs, c.rflags, c.rsp, c.ss]

variable {m m' : ℕ → UInt64} {a b : ℕ} {c : IrqContext}

/-- The frame at an address of the stack. -/
def load (m : ℕ → UInt64) (a : ℕ) : IrqContext :=
  ⟨m a, m (a + 1), m (a + 2), m (a + 3), m (a + 4), m (a + 5), m (a + 6), m (a + 7), m (a + 8),
    m (a + 9), m (a + 10), m (a + 11), m (a + 12), m (a + 13), m (a + 14), m (a + 15), m (a + 16),
    m (a + 17), m (a + 18), m (a + 19), m (a + 20), m (a + 21)⟩

/-- Write a frame to an address of the stack. -/
def store (m : ℕ → UInt64) (a : ℕ) (c : IrqContext) : ℕ → UInt64 :=
  fun x => if a ≤ x then (c.words[x - a]?).getD (m x) else m x

theorem length_words : c.words.length = size := rfl

theorem load_store : load (store m a c) a = c := by
  simp [load, store, words]

theorem load_congr (h : ∀ x, a ≤ x → m x = m' x) : load m a = load m' a := by
  simp [load, h]

theorem load_store_of_le (h : a + size ≤ b) : load (store m a c) b = load m b := by
  apply load_congr
  intro x hx
  have hnone : c.words[x - a]? = none := by
    apply List.getElem?_eq_none
    rw [length_words]
    omega
  simp [store, hnone]

theorem load_update_of_lt {x : ℕ} {w : UInt64} (h : x < b) :
    load (Function.update m x w) b = load m b := by
  apply load_congr
  intro y hy
  exact Function.update_of_ne (by omega) _ _

end IrqContext

end Koerix
