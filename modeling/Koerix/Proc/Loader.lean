import Koerix.AddrSpace.AddPage
import Koerix.Heap.Memory
import Koerix.Spaces.Basic

/-! # Demand loading

The pages of a program are filled from its binary when they are touched. `load` finds the
segment of the address and copies a whole page out of the file, from where the segment is.
The size of the segment in the file is never looked at: where it ends within the page, or in
front of it, the copy goes on with what comes next in the file.
-/

namespace Koerix

open GenericPagingTable AddrSpace

/-- `Elf64ProgHeaderTableEntry`, as far as it is read. -/
structure ProgHeader where
  type : UInt32
  flags : UInt32
  pOffset : UInt64
  pVaddr : UInt64
  pFilesz : UInt64
  pMemsz : UInt64
  deriving DecidableEq

/-- `Loader`: the bytes from `m_elfBinary` on, and what the header leads to. -/
structure Loader where
  elfBinary : UInt64 → UInt8
  magic : UInt32
  pht : List ProgHeader

namespace Loader

/-- A little-endian field of `n` bytes. -/
def field (file : UInt64 → UInt8) : UInt64 → ℕ → ℕ
  | _, 0 => 0
  | p, n + 1 => (file p).toNat + 256 * field file (p + 1) n

def progHeader (file : UInt64 → UInt8) (p : UInt64) : ProgHeader where
  type := .ofNat (field file p 4)
  flags := .ofNat (field file (p + 4) 4)
  pOffset := .ofNat (field file (p + 8) 8)
  pVaddr := .ofNat (field file (p + 16) 8)
  pFilesz := .ofNat (field file (p + 32) 8)
  pMemsz := .ofNat (field file (p + 40) 8)

/-- `Loader(elfBinary)`: the table is at `pht_pos` and has `pht_entries` entries. -/
def ofBinary (file : UInt64 → UInt8) : Loader where
  elfBinary := file
  magic := .ofNat (field file 0 4)
  pht := (List.range (field file 56 2)).map fun i =>
    progHeader file (.ofNat (field file 32 8) + 56 * .ofNat i)

def isValidBinary (l : Loader) : Bool :=
  l.magic == 0x464c457f && l.pht.all fun e => e.type != 1 || e.pVaddr &&& 0xfff == 0

/-- `page_start_addr`; `~0xfff` is an `int` that is extended with its sign. -/
def pageStart (addr : UInt64) : UInt64 := addr &&& 0xfffffffffffff000

def destAddr (e : ProgHeader) (addr : UInt64) : UInt64 :=
  if e.pVaddr > pageStart addr then e.pVaddr else pageStart addr

def length (e : ProgHeader) (addr : UInt64) : UInt64 :=
  if e.pVaddr > pageStart addr then 4096 - (e.pVaddr - pageStart addr) else 4096

def fileOffset (e : ProgHeader) (addr : UInt64) : UInt64 :=
  e.pOffset + (destAddr e addr - e.pVaddr)

/-- `memcpy` of bytes of the file into a page. -/
def memcpy (words : ℕ → BitVec 64) (dest : ℕ) (file : UInt64 → UInt8) (offset : UInt64)
    (n : ℕ) : ℕ → BitVec 64 :=
  (List.range n).foldl (fun w i => setByte w (dest + i) (file (offset + .ofNat i))) words

/-- The bytes of the file that are read. -/
def reads (e : ProgHeader) (addr : UInt64) : List UInt64 :=
  (List.range (length e addr).toNat).map fun i => fileOffset e addr + .ofNat i

def mapFlags (e : ProgHeader) : MapFlags where
  user := true
  write := e.flags &&& 2 != 0
  noexec := e.flags &&& 1 == 0
  shared := false
  nocache := false

/-- What `load` does once it has found the segment. -/
def loadPage (l : Loader) (e : ProgHeader) (addr : UInt64) (pml4 : ℕ) (s : Vm) : Option Vm := do
  let (ppn, s) ← s.alloc
  let s := s.setFrame ppn fun _ => 0
  let destOffset := destAddr e addr &&& 0xfff
  let s := s.setFrame ppn (memcpy (s.mem ppn) destOffset.toNat l.elfBinary (fileOffset e addr)
    (length e addr).toNat)
  AddrSpace.map pml4 (addr >>> 12).toNat ppn (mapFlags e) s

/-- The loop of `load` over the table: what is returned, the bytes of the file that were read,
and the memory. -/
def loadFrom (l : Loader) (addr : UInt64) (pml4 : ℕ) (s : Vm) :
    List ProgHeader → Option (Bool × List UInt64 × Vm)
  | [] => some (false, [], s)
  | e :: pht =>
    if addr < e.pVaddr ∨ addr ≥ e.pVaddr + e.pMemsz then loadFrom l addr pml4 s pht
    else if e.type ≠ 1 then loadFrom l addr pml4 s pht
    else (l.loadPage e addr pml4 s).map fun s => (true, reads e addr, s)

def load (l : Loader) (addr : UInt64) (pml4 : ℕ) (s : Vm) : Option (Bool × List UInt64 × Vm) :=
  l.loadFrom addr pml4 s l.pht

end Loader

namespace ProgHeader

/-- The segment is loaded and contains the address. -/
structure Contains (e : ProgHeader) (addr : UInt64) : Prop where
  type : e.type = 1
  le : e.pVaddr.toNat ≤ addr.toNat
  lt : addr.toNat < e.pVaddr.toNat + e.pMemsz.toNat

/-- The page has an address of the segment. -/
def Covers (e : ProgHeader) (v : ℕ) : Prop :=
  e.pVaddr.toNat < (v + 1) * 4096 ∧ v * 4096 < e.pVaddr.toNat + e.pMemsz.toNat

theorem Contains.covers {e : ProgHeader} {addr : UInt64} (h : e.Contains addr) :
    e.Covers (addr.toNat / 4096) := by
  obtain ⟨-, hle, hlt⟩ := h
  constructor <;> omega

end ProgHeader

namespace Loader

/-- A binary that is accepted, with segments that do not wrap around and have their pages to
themselves. -/
structure Accepted (l : Loader) : Prop where
  valid : l.isValidBinary = true
  filesz : ∀ e ∈ l.pht, e.type = 1 → e.pFilesz.toNat ≤ e.pMemsz.toNat
  noWrap : ∀ e ∈ l.pht, e.type = 1 → e.pVaddr.toNat + e.pMemsz.toNat < 2 ^ 64 ∧
    e.pOffset.toNat + e.pFilesz.toNat ≤ 2 ^ 64
  disjoint : l.pht.Pairwise fun e e' => e.type = 1 → e'.type = 1 → ∀ v, ¬ (e.Covers v ∧ e'.Covers v)

/-- `USER_BREAK`. -/
def userBreak : ℕ := 0x0000800000000000

/-- The byte of the program at an address of a segment. -/
def imageByte (l : Loader) (e : ProgHeader) (b : ℕ) : UInt8 :=
  if e.pVaddr.toNat ≤ b ∧ b < e.pVaddr.toNat + e.pFilesz.toNat then
    l.elfBinary (.ofNat (e.pOffset.toNat + (b - e.pVaddr.toNat)))
  else 0

/-- `load` maps the page of the address with the bytes of the program and the permissions of
the segment, and reads no other part of the file. -/
def Reproduces (l : Loader) (e : ProgHeader) (addr : UInt64) (r : ℕ) (s : Vm) : Prop :=
  ∃ offsets s' p, l.load addr r s = some (true, offsets, s') ∧
    view s' r (addr.toNat / 4096) = some p ∧ p.user = true ∧
    p.writable = (e.flags &&& 2 != 0) ∧ p.noExec = (e.flags &&& 1 == 0) ∧
    (∀ o ∈ offsets, e.pOffset.toNat ≤ o.toNat ∧ o.toNat < e.pOffset.toNat + e.pFilesz.toNat) ∧
    ∀ j < 4096, byteOf p.content j = l.imageByte e (addr.toNat / 4096 * 4096 + j)

section Arithmetic

variable {addr : UInt64}

theorem toNat_pageStart (addr : UInt64) : (pageStart addr).toNat = addr.toNat / 4096 * 4096 := by
  rw [pageStart, UInt64.toNat_and]
  apply Nat.eq_of_testBit_eq
  intro i
  have hmask : (0xfffffffffffff000 : UInt64).toNat = (2 ^ 52 - 1) * 2 ^ 12 := rfl
  have hpow : (4096 : ℕ) = 2 ^ 12 := rfl
  rw [hmask, hpow, Nat.testBit_and, Nat.testBit_mul_two_pow, Nat.testBit_mul_two_pow,
    Nat.testBit_two_pow_sub_one, Nat.testBit_div_two_pow]
  by_cases hi : 12 ≤ i
  · rw [Nat.sub_add_cancel hi]
    by_cases hi' : i < 64
    · simp [hi, show i - 12 < 52 by omega]
    · have hbit : addr.toNat.testBit i = false :=
        Nat.testBit_lt_two_pow (addr.toNat_lt.trans_le
          (Nat.pow_le_pow_right (by decide) (by omega)))
      simp [hbit]
  · simp [hi]

theorem toNat_and_fff (addr : UInt64) : (addr &&& 0xfff).toNat = addr.toNat % 4096 := by
  rw [UInt64.toNat_and]
  exact Nat.and_two_pow_sub_one_eq_mod addr.toNat 12

theorem toNat_shiftRight (addr : UInt64) : (addr >>> 12).toNat = addr.toNat / 4096 := by
  rw [UInt64.toNat_shiftRight]
  exact Nat.shiftRight_eq_div_pow addr.toNat 12

end Arithmetic

/-- The segment that `load` finds for an address. -/
def segment (l : Loader) (addr : UInt64) : Option ProgHeader :=
  l.pht.find? fun e => ¬ (addr < e.pVaddr ∨ addr ≥ e.pVaddr + e.pMemsz) ∧ e.type = 1

/-- What `load` writes into the page of an address. -/
def pageContent (l : Loader) (e : ProgHeader) (addr : UInt64) : ℕ → BitVec 64 :=
  memcpy (fun _ => 0) (destAddr e addr &&& 0xfff).toNat l.elfBinary (fileOffset e addr)
    (length e addr).toNat

theorem load_eq (l : Loader) (addr : UInt64) (pml4 : ℕ) (s : Vm) :
    l.load addr pml4 s = match l.segment addr with
      | none => some (false, [], s)
      | some e => (l.loadPage e addr pml4 s).map fun s => (true, reads e addr, s) := by
  rw [load, segment]
  induction l.pht with
  | nil => rfl
  | cons e pht ih =>
    rw [loadFrom, List.find?_cons, ih]
    by_cases hout : addr < e.pVaddr ∨ addr ≥ e.pVaddr + e.pMemsz
    · simp [hout]
    · by_cases ht : e.type = 1
      · simp [hout, ht]
      · simp [hout, ht]

theorem loadPage_eq (l : Loader) (e : ProgHeader) (addr : UInt64) (pml4 : ℕ) (s : Vm) :
    l.loadPage e addr pml4 s = s.alloc.bind fun (ppn, s₁) =>
      AddrSpace.map pml4 (addr >>> 12).toNat ppn (mapFlags e)
        (s₁.setFrame ppn (l.pageContent e addr)) := by
  have hframe : ∀ (s₁ : Vm) (ppn : ℕ) (words : ℕ → BitVec 64),
      (s₁.setFrame ppn fun _ => 0).setFrame ppn words = s₁.setFrame ppn words := by
    intro s₁ ppn words
    simp [Vm.setFrame]
  simp only [loadPage, Option.bind_eq_bind, Vm.mem_setFrame_self, hframe, pageContent]

theorem byteOf_memcpy {words : ℕ → BitVec 64} {dest n j : ℕ} {file : UInt64 → UInt8}
    {offset : UInt64} : byteOf (memcpy words dest file offset n) j =
      if dest ≤ j ∧ j < dest + n then file (offset + .ofNat (j - dest)) else byteOf words j := by
  induction n with
  | zero => simp [memcpy, show ¬ (dest ≤ j ∧ j < dest) by omega]
  | succ n ih =>
    have hstep : memcpy words dest file offset (n + 1) =
        setByte (memcpy words dest file offset n) (dest + n) (file (offset + .ofNat n)) := by
      simp [memcpy, List.range_succ]
    rw [hstep, byteOf_setByte, ih]
    by_cases hj : j = dest + n
    · rw [if_pos hj, if_pos (by omega), hj, Nat.add_sub_cancel_left]
    · have hiff : (dest ≤ j ∧ j < dest + (n + 1)) ↔ (dest ≤ j ∧ j < dest + n) := by omega
      simp only [if_neg hj, hiff]

section Segment

variable {l : Loader} {e : ProgHeader} {addr : UInt64}

theorem Accepted.aligned (h : l.Accepted) (he : e ∈ l.pht) (ht : e.type = 1) :
    e.pVaddr.toNat % 4096 = 0 := by
  have hv := h.valid
  rw [isValidBinary, Bool.and_eq_true, List.all_eq_true] at hv
  have ha : e.pVaddr &&& 0xfff = 0 := by simpa [ht] using hv.2 e he
  rw [← toNat_and_fff, ha]
  rfl

theorem Accepted.le_pageStart (h : l.Accepted) (he : e ∈ l.pht) (hc : e.Contains addr) :
    e.pVaddr.toNat ≤ addr.toNat / 4096 * 4096 := by
  have ha := h.aligned he hc.type
  have hle := hc.le
  omega

theorem Accepted.not_gt (h : l.Accepted) (he : e ∈ l.pht) (hc : e.Contains addr) :
    ¬ e.pVaddr > pageStart addr := by
  rw [gt_iff_lt, UInt64.lt_iff_toNat_lt, toNat_pageStart]
  have hle := h.le_pageStart he hc
  omega

theorem Accepted.segment_eq (h : l.Accepted) (he : e ∈ l.pht) (hc : e.Contains addr) :
    l.segment addr = some e := by
  have hrange : ∀ e' ∈ l.pht, (¬ (addr < e'.pVaddr ∨ addr ≥ e'.pVaddr + e'.pMemsz) ∧
      e'.type = 1 ↔ e'.Contains addr) := by
    intro e' he'
    by_cases ht : e'.type = 1
    · have hw := (h.noWrap e' he' ht).1
      rw [UInt64.lt_iff_toNat_lt, ge_iff_le, UInt64.le_iff_toNat_le, UInt64.toNat_add,
        Nat.mod_eq_of_lt hw]
      constructor
      · rintro ⟨hin, -⟩
        exact ⟨ht, by omega, by omega⟩
      · rintro ⟨-, hle, hlt⟩
        exact ⟨by omega, ht⟩
    · exact ⟨fun hin => absurd hin.2 ht, fun hc' => absurd hc'.type ht⟩
  have hdisjoint := h.disjoint
  rw [segment]
  generalize l.pht = pht at he hrange hdisjoint
  induction pht with
  | nil => contradiction
  | cons e' pht ih =>
    obtain ⟨hhead, htail⟩ := List.pairwise_cons.mp hdisjoint
    rw [List.find?_cons]
    rcases List.mem_cons.mp he with rfl | he
    · rw [decide_eq_true ((hrange e List.mem_cons_self).mpr hc)]
    · have hn : ¬ (¬ (addr < e'.pVaddr ∨ addr ≥ e'.pVaddr + e'.pMemsz) ∧ e'.type = 1) := by
        intro hin
        have hc' := (hrange e' List.mem_cons_self).mp hin
        exact hhead e he hc'.type hc.type _ ⟨hc'.covers, hc.covers⟩
      rw [decide_eq_false hn]
      exact ih he (fun e he => hrange e (List.mem_cons_of_mem _ he)) htail

/-- The page of a program at page number `v` of a segment, as `load` fills it. -/
def segmentPage (l : Loader) (e : ProgHeader) (v : ℕ) : Page where
  writable := e.flags &&& 2 != 0
  user := true
  noExec := e.flags &&& 1 == 0
  cacheDisable := false
  shared := false
  foreign := false
  content := memcpy (fun _ => 0) 0 l.elfBinary
    (e.pOffset + (.ofNat (v * 4096) - e.pVaddr)) 4096

theorem pageStart_eq (addr : UInt64) : pageStart addr = .ofNat (addr.toNat / 4096 * 4096) := by
  rw [← toNat_pageStart, UInt64.ofNat_toNat]

section Copy

variable (h : l.Accepted) (he : e ∈ l.pht) (hc : e.Contains addr)

include h he hc

theorem Accepted.destAddr_eq : destAddr e addr = pageStart addr := if_neg (h.not_gt he hc)

theorem Accepted.length_eq : (length e addr).toNat = 4096 := by
  rw [length, if_neg (h.not_gt he hc)]
  rfl

theorem Accepted.fileOffset_eq : fileOffset e addr =
    e.pOffset + (.ofNat (addr.toNat / 4096 * 4096) - e.pVaddr) := by
  rw [fileOffset, h.destAddr_eq he hc, pageStart_eq]

theorem Accepted.destOffset_eq : (destAddr e addr &&& 0xfff).toNat = 0 := by
  rw [h.destAddr_eq he hc, toNat_and_fff, toNat_pageStart, Nat.mul_mod_left]

theorem Accepted.pageContent_eq :
    l.pageContent e addr = (l.segmentPage e (addr.toNat / 4096)).content := by
  rw [pageContent, h.destOffset_eq he hc, h.length_eq he hc, h.fileOffset_eq he hc, segmentPage]

end Copy

variable {s : Vm} {live : List ℕ} {pos : Positions} {base : ℕ → ℕ} {r : ℕ}

/-- What `load` does to the pages of an address space: one is added. -/
theorem Accepted.load (h : l.Accepted) (he : e ∈ l.pht) (hc : e.Contains addr)
    (hset : Settled base s live pos) (hr : r ∈ live) (hbreak : addr.toNat < userBreak)
    (hun : view s r (addr.toNat / 4096) = none) (hfree : 4 ≤ s.pageMap.freeFrames) :
    ∃ s', l.load addr r s = some (true, reads e addr, s') ∧
      s.pageMap.freeFrames ≤ s'.pageMap.freeFrames + 4 ∧ (∃ pos', Settled base s' live pos') ∧
      view s' r (addr.toNat / 4096) = some (l.segmentPage e (addr.toNat / 4096)) ∧
      ∀ v < userPages, v ≠ addr.toNat / 4096 → view s' r v = view s r v := by
  have hv : addr.toNat / 4096 < userPages := by
    unfold userBreak at hbreak
    unfold userPages
    omega
  obtain ⟨ppn, s₁, s', ha, hm, hle, hset', hview, hother⟩ :=
    hset.addPage hr hv hun hfree (show (mapFlags e).shared = false from rfl)
      (l.segmentPage e (addr.toNat / 4096)).content
  have hpage : l.segmentPage e (addr.toNat / 4096) = ⟨(mapFlags e).write, (mapFlags e).user,
      (mapFlags e).noexec, (mapFlags e).nocache, false, false,
      (l.segmentPage e (addr.toNat / 4096)).content⟩ := by
    simp only [segmentPage, mapFlags]
  refine ⟨s', ?_, hle, hset', hpage ▸ hview, hother⟩
  simp only [load_eq, h.segment_eq he hc, loadPage_eq, ha, Option.bind_some, toNat_shiftRight,
    h.pageContent_eq he hc, hm, Option.map_some]

theorem toNat_offset {a i : ℕ} (hle : e.pVaddr.toNat ≤ a) (ha : a < 2 ^ 64) :
    (e.pOffset + (.ofNat a - e.pVaddr) + .ofNat i).toNat =
      (e.pOffset.toNat + (a + i - e.pVaddr.toNat)) % 2 ^ 64 := by
  simp only [UInt64.toNat_add, UInt64.toNat_sub, UInt64.toNat_ofNat']
  omega

theorem byteOf_segmentPage {v j : ℕ} (hj : j < 4096) (hv : v * 4096 < 2 ^ 64)
    (hle : e.pVaddr.toNat ≤ v * 4096) :
    byteOf (l.segmentPage e v).content j =
      l.elfBinary (.ofNat (e.pOffset.toNat + (v * 4096 + j - e.pVaddr.toNat))) := by
  rw [segmentPage, byteOf_memcpy, if_pos (by omega), Nat.sub_zero]
  congr 1
  apply UInt64.toNat_inj.mp
  rw [toNat_offset hle hv, UInt64.toNat_ofNat']

/-- `load` reproduces a page of the program exactly when the whole page is in the file. -/
theorem Accepted.reproduces_iff (h : l.Accepted) (he : e ∈ l.pht) (hc : e.Contains addr)
    (hset : Settled base s live pos) (hr : r ∈ live) (hbreak : addr.toNat < userBreak)
    (hun : view s r (addr.toNat / 4096) = none) (hfree : 4 ≤ s.pageMap.freeFrames) :
    l.Reproduces e addr r s ↔
      addr.toNat / 4096 * 4096 + 4096 ≤ e.pVaddr.toNat + e.pFilesz.toNat := by
  obtain ⟨s', hload, -, -, hview, -⟩ := h.load he hc hset hr hbreak hun hfree
  have hle := h.le_pageStart he hc
  have hwrap := (h.noWrap e he hc.type).2
  have hmem : ∀ i < 4096, e.pOffset + (.ofNat (addr.toNat / 4096 * 4096) - e.pVaddr) + .ofNat i ∈
      reads e addr := by
    intro i hi
    rw [reads, h.length_eq he hc, h.fileOffset_eq he hc]
    exact List.mem_map_of_mem (List.mem_range.mpr hi)
  unfold userBreak at hbreak
  constructor
  · rintro ⟨offsets, s'', p, hload', -, -, -, -, hreads, -⟩
    obtain ⟨-, rfl, -⟩ : true = true ∧ reads e addr = offsets ∧ s' = s'' := by
      simpa using hload.symm.trans hload'
    -- the last byte that is read has to be in the segment
    obtain ⟨hlow, hhigh⟩ := hreads _ (hmem 4095 (by decide))
    rw [toNat_offset hle (by omega)] at hlow hhigh
    omega
  · intro hfull
    refine ⟨reads e addr, s', _, hload, hview, rfl, rfl, rfl, ?_, ?_⟩
    · intro o ho
      rw [reads, h.length_eq he hc, h.fileOffset_eq he hc] at ho
      obtain ⟨i, hi, rfl⟩ := List.mem_map.mp ho
      rw [List.mem_range] at hi
      rw [toNat_offset hle (by omega), Nat.mod_eq_of_lt (by omega)]
      omega
    · intro j hj
      rw [byteOf_segmentPage hj (by omega) hle, imageByte, if_pos (by omega)]

/-- A sequence of faults that `load` is called for. -/
def loads (l : Loader) (r : ℕ) (s : Vm) (faults : List UInt64) : Option Vm :=
  faults.foldlM (fun s addr => (l.load addr r s).map (·.2.2)) s

/-- The faults are in segments, each at a page of its own that is not mapped yet, and there are
frames for all of them. -/
structure Faults (l : Loader) (r : ℕ) (s : Vm) (faults : List UInt64) : Prop where
  inside : ∀ a ∈ faults, a.toNat < userBreak ∧ ∃ e ∈ l.pht, e.Contains a
  pages : (faults.map fun a => a.toNat / 4096).Nodup
  unmapped : ∀ a ∈ faults, view s r (a.toNat / 4096) = none
  frames : 4 * faults.length ≤ s.pageMap.freeFrames

theorem Faults.perm {faults faults' : List UInt64} (h : l.Faults r s faults)
    (hp : faults'.Perm faults) : l.Faults r s faults' where
  inside a ha := h.inside a (hp.mem_iff.mp ha)
  pages := (hp.map _).nodup_iff.mpr h.pages
  unmapped a ha := h.unmapped a (hp.mem_iff.mp ha)
  frames := hp.length_eq ▸ h.frames

/-- Every fault adds its page, and no other. -/
theorem Accepted.loads {faults : List UInt64} (h : l.Accepted) (hset : Settled base s live pos)
    (hr : r ∈ live) (hf : l.Faults r s faults) :
    ∃ s', l.loads r s faults = some s' ∧
      (∀ a ∈ faults, ∀ e ∈ l.pht, e.Contains a →
        view s' r (a.toNat / 4096) = some (l.segmentPage e (a.toNat / 4096))) ∧
      ∀ v < userPages, (∀ a ∈ faults, a.toNat / 4096 ≠ v) → view s' r v = view s r v := by
  induction faults generalizing s pos with
  | nil => exact ⟨s, rfl, by simp, fun _ _ _ => rfl⟩
  | cons a faults ih =>
    obtain ⟨hbreak, e, he, hc⟩ := hf.inside a List.mem_cons_self
    have hun := hf.unmapped a List.mem_cons_self
    have hframes : 4 * faults.length + 4 ≤ s.pageMap.freeFrames := by
      simpa [Nat.mul_add] using hf.frames
    obtain ⟨s₁, hload, hle, ⟨pos₁, hset₁⟩, -, hother⟩ :=
      h.load he hc hset hr hbreak hun (by omega)
    obtain ⟨hnew, hnodup⟩ := List.nodup_cons.mp hf.pages
    have hne : ∀ a' ∈ faults, a'.toNat / 4096 ≠ a.toNat / 4096 := by
      intro a' ha' heq
      exact hnew (List.mem_map.mpr ⟨a', ha', heq⟩)
    have hpage : ∀ a' ∈ a :: faults, a'.toNat / 4096 < userPages := by
      intro a' ha'
      have hlt := (hf.inside a' ha').1
      unfold userBreak at hlt
      unfold userPages
      omega
    have hf₁ : l.Faults r s₁ faults := {
      inside := fun a' ha' => hf.inside a' (List.mem_cons_of_mem _ ha')
      pages := hnodup
      unmapped := fun a' ha' => by
        rw [hother _ (hpage a' (List.mem_cons_of_mem _ ha')) (hne a' ha')]
        exact hf.unmapped a' (List.mem_cons_of_mem _ ha')
      frames := by omega }
    obtain ⟨s', hrun, hpages, hrest⟩ := ih hset₁ hf₁
    refine ⟨s', ?_, ?_, ?_⟩
    · rw [Loader.loads, List.foldlM_cons, hload]
      exact hrun
    · rintro a' (_ | ⟨_, ha'⟩) e' he' hc'
      · rw [hrest _ (hpage a List.mem_cons_self) hne]
        obtain ⟨s₂, hload₂, -, -, hview, -⟩ := h.load he' hc' hset hr hbreak hun (by omega)
        obtain rfl : s₁ = s₂ := by
          simpa using congrArg (Option.map (·.2.2)) (hload.symm.trans hload₂)
        exact hview
      · exact hpages a' ha' e' he' hc'
    · intro v hv hall
      rw [hrest v hv fun a' ha' => hall a' (List.mem_cons_of_mem _ ha'),
        hother v hv (hall a List.mem_cons_self).symm]

/-- `load` reproduces a page of the program exactly when the whole page is in the file. The
order of the faults makes no difference to the pages in the end. -/
theorem load_reproduces_iff (h : l.Accepted) (hset : Settled base s live pos) (hr : r ∈ live) :
    (∀ e ∈ l.pht, ∀ addr, e.Contains addr → addr.toNat < userBreak →
      view s r (addr.toNat / 4096) = none → 4 ≤ s.pageMap.freeFrames →
      (l.Reproduces e addr r s ↔
        addr.toNat / 4096 * 4096 + 4096 ≤ e.pVaddr.toNat + e.pFilesz.toNat)) ∧
    ∀ faults faults', l.Faults r s faults → faults'.Perm faults →
      ∃ s₁ s₂, l.loads r s faults = some s₁ ∧ l.loads r s faults' = some s₂ ∧
        ∀ v < userPages, view s₂ r v = view s₁ r v := by
  constructor
  · intro e he addr hc hbreak hun hfree
    exact h.reproduces_iff he hc hset hr hbreak hun hfree
  · intro faults faults' hf hp
    obtain ⟨s₁, hrun₁, hpages₁, hrest₁⟩ := h.loads hset hr hf
    obtain ⟨s₂, hrun₂, hpages₂, hrest₂⟩ := h.loads hset hr (hf.perm hp)
    refine ⟨s₁, s₂, hrun₁, hrun₂, fun v hv => ?_⟩
    by_cases hfault : ∃ a ∈ faults, a.toNat / 4096 = v
    · obtain ⟨a, ha, rfl⟩ := hfault
      obtain ⟨-, e, he, hc⟩ := hf.inside a ha
      rw [hpages₁ a ha e he hc, hpages₂ a (hp.mem_iff.mpr ha) e he hc]
    · have hne : ∀ a ∈ faults, a.toNat / 4096 ≠ v := fun a ha heq => hfault ⟨a, ha, heq⟩
      rw [hrest₁ v hv hne, hrest₂ v hv fun a ha => hne a (hp.mem_iff.mp ha)]

end Segment

/-- A binary with one segment of two pages at `0x400000`, the first of which is in the file. -/
def programBytes : List UInt8 :=
  [0x7f, 0x45, 0x4c, 0x46] ++ List.replicate 28 0 ++ [64] ++ List.replicate 23 0 ++ [1] ++
    List.replicate 7 0 ++ [1, 0, 0, 0, 5] ++ List.replicate 13 0 ++ [0x40] ++
    List.replicate 14 0 ++ [0x10] ++ List.replicate 7 0 ++ [0x20]

def program (p : UInt64) : UInt8 := programBytes.getD p.toNat 0

theorem pht_program : (ofBinary program).pht = [⟨1, 5, 0, 0x400000, 4096, 8192⟩] := by
  decide +kernel

theorem accepted_program : (ofBinary program).Accepted where
  valid := by decide +kernel
  filesz := by
    rw [pht_program]
    decide
  noWrap := by
    rw [pht_program]
    decide
  disjoint := by
    rw [pht_program]
    exact List.pairwise_singleton _ _

/-- An address space without pages. -/
def started : ℕ × Vm := (AddrSpace.create (Spaces.blank 16)).get (by decide +kernel)

theorem create_started : AddrSpace.create (Spaces.blank 16) = some started :=
  (Option.some_get _).symm

theorem settled_started : ∃ pos, Settled (Spaces.reserved (Spaces.blank 16)) started.2
    [started.1] pos :=
  ⟨_, ((Spaces.settled_initial (Spaces.blank 16)).create (by decide) create_started).2⟩

theorem view_started {v : ℕ} (hv : v < userPages) : view started.2 started.1 v = none :=
  ((Spaces.settled_initial (Spaces.blank 16)).create_reshaped create_started).2 v hv

theorem freeFrames_started : 4 ≤ started.2.pageMap.freeFrames := by
  decide +kernel

/-- The first page of the program is reproduced. -/
theorem load_reproduces_iff_program :
    (ofBinary program).Reproduces ⟨1, 5, 0, 0x400000, 4096, 8192⟩ 0x400123 started.1 started.2 := by
  obtain ⟨pos, hset⟩ := settled_started
  refine ((load_reproduces_iff accepted_program hset List.mem_cons_self).1
    _ ?_ 0x400123 ?_ ?_ ?_ ?_).mpr ?_
  · rw [pht_program]
    exact List.mem_cons_self
  · exact ⟨rfl, by decide, by decide⟩
  · decide
  · exact view_started (by decide)
  · exact freeFrames_started
  · decide

/-- The second one, which has no part in the file, is not. -/
theorem not_forall_load_reproduces :
    ¬ ∀ (l : Loader) (e : ProgHeader) (addr : UInt64) (base : ℕ → ℕ) (s : Vm) (live : List ℕ)
      (pos : Positions) (r : ℕ), l.Accepted → e ∈ l.pht → e.Contains addr →
      Settled base s live pos → r ∈ live → addr.toNat < userBreak →
      view s r (addr.toNat / 4096) = none → 4 ≤ s.pageMap.freeFrames →
      l.Reproduces e addr r s := by
  intro h
  obtain ⟨pos, hset⟩ := settled_started
  have hmem : (⟨1, 5, 0, 0x400000, 4096, 8192⟩ : ProgHeader) ∈ (ofBinary program).pht := by
    rw [pht_program]
    exact List.mem_cons_self
  have hc : ProgHeader.Contains ⟨1, 5, 0, 0x400000, 4096, 8192⟩ 0x401000 :=
    ⟨rfl, by decide, by decide⟩
  have hun : view started.2 started.1 ((0x401000 : UInt64).toNat / 4096) = none :=
    view_started (by decide)
  have hrep := h _ _ _ _ _ _ _ _ accepted_program hmem hc hset List.mem_cons_self (by decide) hun
    freeFrames_started
  have hfull := (accepted_program.reproduces_iff hmem hc hset List.mem_cons_self (by decide) hun
    freeFrames_started).mp hrep
  exact absurd hfull (by decide)

end Loader

end Koerix
