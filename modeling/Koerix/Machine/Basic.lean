import Koerix.Heap.Basic
import Koerix.Spaces.Basic

/-! # The machine

The kernel heap and the user address spaces draw their frames from one page
map. The framebuffer call maps device memory into the address space of its
caller.
-/

namespace Koerix

open AddrSpace

/-- The framebuffer as the boot loader describes it. -/
structure Framebuffer where
  addr : UInt64
  pitch : UInt16
  width : UInt16
  height : UInt16
  bpp : UInt16
  deriving DecidableEq, Repr

/-- `FRAMEBUFFER_ADDR`. -/
def framebufferAddr : ℕ := 0x0000400000000000

namespace Framebuffer

/-- `fb_page_count`. -/
def pageCount (fb : Framebuffer) : ℕ :=
  let byteSize := fb.pitch.toNat * fb.height.toNat
  let pages := byteSize / 4096
  if byteSize % 4096 ≠ 0 then pages + 1 else pages

def startPage (fb : Framebuffer) : ℕ := fb.addr.toNat / 4096

/-- `MAP_SHARED | MAP_USER | MAP_WRITE | MAP_NOEXEC | MAP_NOCACHE`. -/
def flags : MapFlags := ⟨true, true, true, true, true⟩

/-- One iteration of the loop in `fb_map`. -/
def mapPage (fb : Framebuffer) (pml4 : ℕ) (s : Vm) (i : ℕ) : Option Vm :=
  AddrSpace.map pml4 (framebufferAddr / 4096 + i) (fb.startPage + i) flags s

/-- `fb_map`. -/
def map (fb : Framebuffer) (pml4 : ℕ) (s : Vm) : Option (ℤ × Vm) := do
  let s ← (List.range fb.pageCount).foldlM (fb.mapPage pml4) s
  return (framebufferAddr, s)

/-- `fb_info`; the pitch in pixels is a division that traps for less than 8 bits per pixel. -/
def info (fb : Framebuffer) (pml4 : ℕ) (type : ℤ) (s : Vm) : Option (ℤ × Vm) :=
  match type with
  | 1 => fb.map pml4 s
  | 2 => some (fb.width.toNat, s)
  | 3 => some (fb.height.toNat, s)
  | 4 =>
    if fb.bpp.toNat / 8 = 0 then none
    else some ((fb.pitch.toNat / (fb.bpp.toNat / 8) : ℕ), s)
  | 5 => some ((fb.bpp.toNat / 8 : ℕ), s)
  | _ => some (-22, s)

theorem info_eq_some {fb : Framebuffer} {pml4 : ℕ} {type x : ℤ} {s s' : Vm}
    (h : fb.info pml4 type s = some (x, s')) :
    s' = s ∨ type = 1 ∧ (List.range fb.pageCount).foldlM (fb.mapPage pml4) s = some s' := by
  unfold info at h
  split at h
  · refine Or.inr ⟨rfl, ?_⟩
    simp only [map, Option.bind_eq_bind, Option.bind_eq_some_iff, Option.pure_def,
      Option.some.injEq, Prod.mk.injEq] at h
    obtain ⟨u, hu, -, rfl⟩ := h
    exact hu
  all_goals
    left
    try split_ifs at h
    cases h
    rfl

theorem page_lt_userPages {fb : Framebuffer} {i : ℕ} (hi : i < fb.pageCount) :
    framebufferAddr / 4096 + i < userPages := by
  have hp := fb.pitch.toNat_lt
  have hh := fb.height.toNat_lt
  have hsize : fb.pitch.toNat * fb.height.toNat ≤ 65535 * 65535 :=
    Nat.mul_le_mul (by omega) (by omega)
  unfold pageCount at hi
  unfold framebufferAddr userPages
  dsimp only at hi
  split_ifs at hi <;> omega

end Framebuffer

/-- The kernel heap with the physical memory, and the PML4 frames of the live processes. -/
structure Machine where
  heap : Heap
  live : List ℕ

namespace Machine

/-- A call of the kernel heap, the framebuffer driver, or the process code. -/
inductive Call
  | kbrk (increment : ℕ)
  | fbInfo (a : ℕ) (type : ℤ)
  | space (c : Spaces.Call)

def spaces (m : Machine) : Spaces := ⟨m.heap.vm, m.live⟩

/-- The machine with other address spaces. -/
def withSpaces (m : Machine) (s : Spaces) : Machine := ⟨{ m.heap with vm := s.vm }, s.live⟩

def step (fb : Framebuffer) (m : Machine) : Call → Option Machine
  | .kbrk increment => do
    let (_, heap) ← m.heap.kbrk increment
    return { m with heap }
  | .fbInfo a type => do
    let r ← m.live[a]?
    let (_, vm) ← fb.info r type m.heap.vm
    return m.withSpaces ⟨vm, m.live⟩
  | .space c => do
    let s ← m.spaces.step c
    return m.withSpaces s

variable {fb : Framebuffer} {m m' : Machine}

theorem step_kbrk {increment : ℕ} (h : m.step fb (.kbrk increment) = some m') :
    ∃ o heap, m.heap.kbrk increment = some (o, heap) ∧ m' = { m with heap } := by
  simp only [step, Option.bind_eq_bind, Option.bind_eq_some_iff, Prod.exists, Option.pure_def,
    Option.some.injEq] at h
  obtain ⟨o, heap, hk, rfl⟩ := h
  exact ⟨o, heap, hk, rfl⟩

theorem step_fbInfo {a : ℕ} {type : ℤ} (h : m.step fb (.fbInfo a type) = some m') :
    ∃ r x vm, m.live[a]? = some r ∧ fb.info r type m.heap.vm = some (x, vm) ∧
      m' = m.withSpaces ⟨vm, m.live⟩ := by
  simp only [step, Option.bind_eq_bind, Option.bind_eq_some_iff, Prod.exists, Option.pure_def,
    Option.some.injEq] at h
  obtain ⟨r, hr, x, vm, hi, rfl⟩ := h
  exact ⟨r, x, vm, hr, hi, rfl⟩

theorem step_space {c : Spaces.Call} (h : m.step fb (.space c) = some m') :
    ∃ s, m.spaces.step c = some s ∧ m' = m.withSpaces s := by
  simp only [step, Option.bind_eq_bind, Option.bind_eq_some_iff, Option.pure_def,
    Option.some.injEq] at h
  obtain ⟨s, hs, rfl⟩ := h
  exact ⟨s, hs, rfl⟩

end Machine

end Koerix
