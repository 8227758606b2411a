import Koerix.PageMap.Account
import Mathlib.Data.Finset.Sigma
import Mathlib.Data.List.Nodup
import Mathlib.Data.Finset.Dedup

/-! # Building the page map at boot

The bootloader describes physical memory as a list of ranges. The size of the page
map is read off the last range of RAM, the array of counters is put into the first
usable range that is large enough, and then counters are written in three loops: all
are reserved, usable frames are free, and the frames of the array itself are reserved
again. The counters and page totals agree from there on, whatever frames are
allocated, referenced and freed.
-/

namespace Koerix

/-- Types of memory, as stivale numbers them. -/
inductive MemType
  | usable
  | reserved
  | acpiReclaimable
  | acpiNvs
  | bad
  | kernel
  | loaderReclaimable
  | framebuffer
  | unknown
  deriving DecidableEq, Repr

structure MmapEntry where
  base : ℕ
  length : ℕ
  type : MemType
  deriving DecidableEq, Repr

/-- Ranges that count as RAM. -/
def MmapEntry.Ram (e : MmapEntry) : Prop := e.type = .usable ∨ e.type = .loaderReclaimable

instance (e : MmapEntry) : Decidable e.Ram := inferInstanceAs (Decidable (_ ∨ _))

/-- The memory map. Physical addresses of RAM have at most 52 bits, and the kernel counts the
entries in an `int`. -/
structure MemoryMap where
  entries : List MmapEntry
  physical : ∀ e ∈ entries, e.Ram → e.base + e.length ≤ 2 ^ 52
  counted : entries.length < 2 ^ 31

def getSystemPageCount (mmap : MemoryMap) : Option ℕ :=
  (mmap.entries.reverse.find? fun e => decide e.Ram).map fun e =>
    ((e.base + e.length) % 2 ^ 64) >>> 12

def getFirstNFreePages (mmap : MemoryMap) (n : ℕ) : ℕ :=
  match mmap.entries.find? fun e => e.type = .usable ∧ (n <<< 12) % 2 ^ 64 ≤ e.length with
  | some e => e.base >>> 12
  | none => 2 ^ 64 - 1

/-- Pages that hold one byte for each frame. -/
def pagemapPages (totalPages : ℕ) : ℕ :=
  (totalPages >>> 12) + if totalPages % 4096 ≠ 0 then 1 else 0

/-- The array under construction, with the indices written so far. -/
structure Build where
  pagemap : ℕ → UInt8
  freePages : UInt64
  written : List ℕ

namespace Build

/-- One iteration of the loops: adjust the number of free pages and write a counter. -/
def put (change : UInt64) (value : UInt8) (b : Build) (i : ℕ) : Build where
  pagemap := Function.update b.pagemap i value
  freePages := b.freePages + change
  written := i :: b.written

def memset (value : UInt8) (n : ℕ) (b : Build) : Build := (List.range n).foldl (put 0 value) b

def addEntry (b : Build) (e : MmapEntry) : Build :=
  if e.type = .usable then (List.range' (e.base >>> 12) (e.length >>> 12)).foldl (put 1 0) b
  else b

def reserve (start n : ℕ) (b : Build) : Build :=
  ((List.range n).map fun i => (start + i) % 2 ^ 64).foldl (put (-1) 0xff) b

end Build

/-- The page map and the indices of all writes to the array, which starts out with any contents.
Without RAM an assertion fails. -/
def createPageBitmap (mmap : MemoryMap) (junk : ℕ → UInt8) : Option (Counters × List ℕ) := do
  let totalPages ← getSystemPageCount mmap
  let n := pagemapPages totalPages
  let start := getFirstNFreePages mmap n
  let b := Build.memset 0xff totalPages ⟨junk, 0, []⟩
  let b := mmap.entries.foldl Build.addEntry b
  let usablePages := b.freePages
  let b := b.reserve start n
  let usedPages := usablePages - b.freePages
  return (⟨totalPages, usablePages, b.freePages, usedPages, b.pagemap⟩, b.written)

/-- What the bootloader guarantees, and room for the array. -/
structure MemoryMap.WellFormed (mmap : MemoryMap) : Prop where
  sorted : mmap.entries.Pairwise fun a b => a.base + a.length ≤ b.base
  aligned : ∀ e ∈ mmap.entries, e.Ram → 4096 ∣ e.base ∧ 4096 ∣ e.length
  room : ∃ e ∈ mmap.entries, e.type = .usable ∧
    ∀ total, getSystemPageCount mmap = some total → pagemapPages total * 4096 ≤ e.length

namespace Build

variable {b : Build}

theorem foldl_put (change : UInt64) (value : UInt8) (is : List ℕ) (b : Build) :
    is.foldl (put change value) b =
      ⟨fun i => if i ∈ is then value else b.pagemap i, b.freePages + .ofNat is.length * change,
        is.reverse ++ b.written⟩ := by
  induction is generalizing b with
  | nil => simp
  | cons i is ih =>
    rw [List.foldl_cons, ih, Build.mk.injEq]
    refine ⟨funext fun j => ?_, ?_, ?_⟩
    · by_cases hj : j ∈ is
      · simp [hj]
      · by_cases hij : j = i <;> simp [put, hj, hij]
    · simp only [put, List.length_cons, UInt64.ofNat_add]
      grind
    · simp [put]

end Build

/-- The frames of usable memory in the order in which they are counted. -/
def usableFrames (entries : List MmapEntry) : List ℕ :=
  entries.flatMap fun e =>
    if e.type = .usable then List.range' (e.base >>> 12) (e.length >>> 12) else []

theorem foldl_addEntry (entries : List MmapEntry) (b : Build) :
    entries.foldl Build.addEntry b = (usableFrames entries).foldl (Build.put 1 0) b := by
  induction entries generalizing b with
  | nil => rfl
  | cons e entries ih =>
    have hcons : usableFrames (e :: entries) = (if e.type = .usable then
        List.range' (e.base >>> 12) (e.length >>> 12) else []) ++ usableFrames entries := rfl
    rw [List.foldl_cons, ih, hcons, List.foldl_append, Build.addEntry]
    split_ifs <;> rfl

theorem mem_usableFrames {entries : List MmapEntry} {i : ℕ} : i ∈ usableFrames entries ↔
    ∃ e ∈ entries, e.type = .usable ∧ e.base >>> 12 ≤ i ∧
      i < (e.base >>> 12) + (e.length >>> 12) := by
  simp only [usableFrames, List.mem_flatMap]
  refine exists_congr fun e => and_congr_right fun _ => ?_
  split_ifs with hu <;> simp [hu, List.mem_range'_1]

namespace MemoryMap.WellFormed

variable {mmap : MemoryMap} {e : MmapEntry} {total i : ℕ}

theorem frames_eq (h : mmap.WellFormed) (he : e ∈ mmap.entries) (hram : e.Ram) :
    (e.base >>> 12) * 4096 = e.base ∧ (e.length >>> 12) * 4096 = e.length := by
  obtain ⟨⟨b, hb⟩, ⟨l, hl⟩⟩ := h.aligned e he hram
  rw [Nat.shiftRight_eq_div_pow, Nat.shiftRight_eq_div_pow]
  omega

/-- The last range of RAM gives the size of the page map, and no RAM is beyond it. -/
theorem end_le (h : mmap.WellFormed) (ht : getSystemPageCount mmap = some total)
    (he : e ∈ mmap.entries) (hram : e.Ram) : (e.base >>> 12) + (e.length >>> 12) ≤ total := by
  obtain ⟨last, hlast, rfl⟩ := Option.map_eq_some_iff.mp ht
  have hmem := List.mem_reverse.mp (List.mem_of_find?_eq_some hlast)
  have hlram : last.Ram := by simpa using List.find?_some hlast
  have hle : e.base + e.length ≤ last.base + last.length := by
    obtain ⟨-, as, bs, hsplit, has⟩ := List.find?_eq_some_iff_append.mp hlast
    have hent : mmap.entries = bs.reverse ++ last :: as.reverse := by
      rw [← List.reverse_reverse mmap.entries, hsplit]
      simp
    rw [hent, List.mem_append, List.mem_cons, List.mem_reverse, List.mem_reverse] at he
    rcases he with hb | rfl | ha
    · have hsort := h.sorted
      rw [hent, List.pairwise_append] at hsort
      exact (hsort.2.2 e (List.mem_reverse.mpr hb) last List.mem_cons_self).trans (by omega)
    · exact le_rfl
    · have := has e ha
      simp [hram] at this
  have hbound := mmap.physical last hmem hlram
  obtain ⟨hb, hl⟩ := h.frames_eq he hram
  rw [Nat.mod_eq_of_lt (by omega), Nat.shiftRight_eq_div_pow (last.base + last.length),
    Nat.le_div_iff_mul_le (by decide)]
  omega

theorem total_le (ht : getSystemPageCount mmap = some total) : total ≤ 2 ^ 40 := by
  obtain ⟨last, hlast, rfl⟩ := Option.map_eq_some_iff.mp ht
  have hmem := List.mem_reverse.mp (List.mem_of_find?_eq_some hlast)
  have hbound := mmap.physical last hmem (by simpa using List.find?_some hlast)
  rw [Nat.mod_eq_of_lt (by omega), Nat.shiftRight_eq_div_pow]
  omega

theorem exists_total (h : mmap.WellFormed) : ∃ total, getSystemPageCount mmap = some total := by
  obtain ⟨e, he, hu, -⟩ := h.room
  refine Option.isSome_iff_exists.mp ?_
  rw [getSystemPageCount, Option.isSome_map, List.find?_isSome]
  exact ⟨e, List.mem_reverse.mpr he, by simp [MmapEntry.Ram, hu]⟩

theorem nodup_usableFrames (h : mmap.WellFormed) : (usableFrames mmap.entries).Nodup := by
  refine List.nodup_flatMap.mpr ⟨fun e _ => ?_, ?_⟩
  · split_ifs
    · exact List.nodup_range' 1
    · exact List.nodup_nil
  · refine h.sorted.imp_of_mem fun {a b} ha hb hle => ?_
    rw [Function.onFun, List.disjoint_left]
    intro i hia hib
    split_ifs at hia hib with hua hub
    · obtain ⟨hba, hla⟩ := h.frames_eq ha (Or.inl hua)
      obtain ⟨hbb, -⟩ := h.frames_eq hb (Or.inl hub)
      rw [List.mem_range'_1] at hia hib
      omega
    all_goals simp_all

/-- The array is put into one usable range. -/
theorem array_usable (h : mmap.WellFormed) (ht : getSystemPageCount mmap = some total) :
    ∃ e ∈ mmap.entries, e.type = .usable ∧
      e.base >>> 12 = getFirstNFreePages mmap (pagemapPages total) ∧
      getFirstNFreePages mmap (pagemapPages total) + pagemapPages total ≤
        (e.base >>> 12) + (e.length >>> 12) := by
  have hle := total_le ht
  have hn : pagemapPages total ≤ 2 ^ 28 := by
    rw [pagemapPages, Nat.shiftRight_eq_div_pow]
    split_ifs <;> omega
  have hshift : (pagemapPages total <<< 12) % 2 ^ 64 = pagemapPages total * 4096 := by
    rw [Nat.shiftLeft_eq, Nat.mod_eq_of_lt (by omega)]
  obtain ⟨e, he, hu, hroom⟩ := h.room
  have hfind : (mmap.entries.find? fun e => decide
      (e.type = .usable ∧ (pagemapPages total <<< 12) % 2 ^ 64 ≤ e.length)).isSome := by
    rw [List.find?_isSome]
    refine ⟨e, he, decide_eq_true ⟨hu, ?_⟩⟩
    rw [hshift]
    exact hroom total ht
  obtain ⟨f, hf⟩ := Option.isSome_iff_exists.mp hfind
  have hstart : getFirstNFreePages mmap (pagemapPages total) = f.base >>> 12 := by
    rw [getFirstNFreePages, hf]
  have hmem := List.mem_of_find?_eq_some hf
  have hfits := List.find?_some hf
  rw [decide_eq_true_eq, hshift] at hfits
  have := (h.frames_eq hmem (Or.inl hfits.1)).2
  exact ⟨f, hmem, hfits.1, hstart.symm, by omega⟩

end MemoryMap.WellFormed

/-- A frame of usable memory. -/
def MemoryMap.Usable (mmap : MemoryMap) (i : ℕ) : Prop :=
  ∃ e ∈ mmap.entries, e.type = .usable ∧ e.base ≤ i * 4096 ∧ i * 4096 < e.base + e.length

instance (mmap : MemoryMap) (i : ℕ) : Decidable (mmap.Usable i) :=
  inferInstanceAs (Decidable (∃ e ∈ mmap.entries, _))

/-- What the page map is like at the end of boot, with its array in the `n` frames from `start`
on. -/
structure Booted (mmap : MemoryMap) (start n : ℕ) (c : Counters) (written : List ℕ) : Prop where
  total : getSystemPageCount mmap = some c.totalPages
  counter : ∀ i < c.totalPages,
    c.pagemap i = if mmap.Usable i ∧ ¬ (start ≤ i ∧ i < start + n) then 0 else 0xff
  write_lt : ∀ i ∈ written, i < c.totalPages
  array : c.totalPages ≤ n * 4096
  inside : ∀ i, start ≤ i → i < start + n → mmap.Usable i ∧ i < c.totalPages
  free : c.freePageCount.toNat = c.freeFrames
  used : c.usedPages = c.usablePages - c.freePageCount

theorem MemoryMap.WellFormed.usable_iff {mmap : MemoryMap} (h : mmap.WellFormed) (i : ℕ) :
    mmap.Usable i ↔ i ∈ usableFrames mmap.entries := by
  rw [mem_usableFrames]
  refine exists_congr fun e => and_congr_right fun he => and_congr_right fun hu => ?_
  obtain ⟨hb, hl⟩ := h.frames_eq he (Or.inl hu)
  omega

theorem le_pagemapPages (total : ℕ) : total ≤ pagemapPages total * 4096 := by
  rw [pagemapPages, Nat.shiftRight_eq_div_pow]
  split_ifs <;> omega

/-- The counters after the three loops. -/
def bootCounter (total : ℕ) (usable array : List ℕ) (junk : ℕ → UInt8) (i : ℕ) : UInt8 :=
  if i ∈ array then 0xff else if i ∈ usable then 0 else if i < total then 0xff else junk i

theorem card_bootCounter {total : ℕ} {usable array : List ℕ} (junk : ℕ → UInt8)
    (hu : usable.Nodup) (ha : array.Nodup) (hsub : ∀ i ∈ array, i ∈ usable)
    (hlt : ∀ i ∈ usable, i < total) :
    ((Finset.range total).filter fun i => bootCounter total usable array junk i = 0).card =
      usable.length - array.length := by
  have hset : (Finset.range total).filter (fun i => bootCounter total usable array junk i = 0) =
      usable.toFinset \ array.toFinset := by
    ext i
    rw [Finset.mem_filter, Finset.mem_range, Finset.mem_sdiff, List.mem_toFinset,
      List.mem_toFinset, bootCounter]
    split_ifs with h1 h2 h3
    · simp [h1]
    · simp [h1, h2, hlt i h2]
    · simp [h2]
    · simp [h2, h3]
  rw [hset, Finset.card_sdiff_of_subset, List.toFinset_card_of_nodup hu,
    List.toFinset_card_of_nodup ha]
  intro i hi
  exact List.mem_toFinset.mpr (hsub i (List.mem_toFinset.mp hi))

theorem createPageBitmap_eq {mmap : MemoryMap} {total : ℕ} (junk : ℕ → UInt8)
    (ht : getSystemPageCount mmap = some total) (usable array : List ℕ)
    (hu : usableFrames mmap.entries = usable)
    (ha : ((List.range (pagemapPages total)).map fun i =>
      (getFirstNFreePages mmap (pagemapPages total) + i) % 2 ^ 64) = array) :
    createPageBitmap mmap junk = some
      (⟨total, .ofNat usable.length, .ofNat usable.length - .ofNat array.length,
        .ofNat usable.length - (.ofNat usable.length - .ofNat array.length),
        bootCounter total usable array junk⟩,
        array.reverse ++ (usable.reverse ++ (List.range total).reverse)) := by
  simp only [createPageBitmap, ht, Option.bind_eq_bind, Option.bind_some, Build.memset,
    foldl_addEntry, Build.reserve, Build.foldl_put, hu, ha, List.mem_range, Option.pure_def,
    UInt64.mul_zero, UInt64.add_zero, UInt64.zero_add, UInt64.mul_one, UInt64.mul_neg,
    ← UInt64.sub_eq_add_neg, List.append_nil]
  rfl

/-- On every well-formed memory map, boot builds a page map in which exactly the usable frames
are free that do not hold the map itself, writes no counter outside of it, and counts right. -/
theorem booted_createPageBitmap (mmap : MemoryMap) (junk : ℕ → UInt8) (h : mmap.WellFormed) :
    ∃ start n c written, createPageBitmap mmap junk = some (c, written) ∧
      n = pagemapPages c.totalPages ∧ start = getFirstNFreePages mmap n ∧
      Booted mmap start n c written := by
  obtain ⟨total, ht⟩ := h.exists_total
  obtain ⟨e, he, hu, hstart, hend⟩ := h.array_usable ht
  have hle := MemoryMap.WellFormed.total_le ht
  have hsmall : ∀ i ∈ usableFrames mmap.entries, i < total := by
    intro i hi
    obtain ⟨e, he, hu, -, hlt⟩ := mem_usableFrames.mp hi
    exact hlt.trans_le (h.end_le ht he (Or.inl hu))
  set n := pagemapPages total
  set start := getFirstNFreePages mmap n
  have hinside : ∀ i, start ≤ i → i < start + n → i ∈ usableFrames mmap.entries :=
    fun i hi hlt => mem_usableFrames.mpr ⟨e, he, hu, by omega, by omega⟩
  have harray : (List.range n).map (fun i => (start + i) % 2 ^ 64) = List.range' start n := by
    rw [List.range'_eq_map_range]
    refine List.map_congr_left fun i hi => Nat.mod_eq_of_lt ?_
    have := hsmall _ (hinside (start + i) (by omega) (by simpa using hi))
    omega
  refine ⟨start, n, _, _, createPageBitmap_eq junk ht _ _ rfl harray, rfl, rfl, ?_⟩
  have hsub : ∀ i ∈ List.range' start n, i ∈ usableFrames mmap.entries := by
    intro i hi
    obtain ⟨h1, h2⟩ := List.mem_range'_1.mp hi
    exact hinside i h1 h2
  refine ⟨ht, ?_, ?_, le_pagemapPages total, ?_, ?_, rfl⟩
  · intro i hi
    simp only [bootCounter, h.usable_iff, List.mem_range'_1, if_pos hi]
    split_ifs <;> first | rfl | tauto
  · intro i hi
    rw [List.mem_append, List.mem_append, List.mem_reverse, List.mem_reverse, List.mem_reverse,
      List.mem_range] at hi
    rcases hi with hi | hi | hi
    · exact hsmall i (hsub i hi)
    · exact hsmall i hi
    · exact hi
  · intro i hi hlt
    exact ⟨(h.usable_iff i).mpr (hinside i hi hlt), hsmall i (hinside i hi hlt)⟩
  · have hcard := card_bootCounter junk h.nodup_usableFrames (List.nodup_range' 1) hsub hsmall
    have hfew := (Finset.card_filter_le (Finset.range total) fun i =>
      bootCounter total (usableFrames mmap.entries) (List.range' start n) junk i = 0)
    have hlen := ((List.nodup_range' 1).subperm hsub).length_le
    rw [hcard, Finset.card_range] at hfew
    rw [Counters.freeFrames, hcard, ← UInt64.ofNat_sub hlen]
    exact UInt64.toNat_ofNat_of_lt' (by rw [UInt64.size]; omega)

/-- Two usable ranges, one that the bootloader gives back, and a framebuffer. -/
def smallMap : MemoryMap where
  entries :=
    [⟨0, 0x9000, .usable⟩, ⟨0x9000, 0x1000, .reserved⟩, ⟨0x10000, 0x4000, .usable⟩,
      ⟨0x14000, 0x2000, .loaderReclaimable⟩, ⟨0x100000, 0x300, .framebuffer⟩]
  physical := by decide
  counted := by decide

theorem wellFormed_smallMap : smallMap.WellFormed := by
  refine ⟨by decide, by decide, ⟨0, 0x9000, .usable⟩, by decide, rfl, fun total ht => ?_⟩
  obtain rfl : 22 = total := Option.some.inj ht
  decide

theorem booted_createPageBitmap_smallMap : ∃ c written,
    createPageBitmap smallMap (fun _ => 7) = some (c, written) ∧ c.totalPages = 22 ∧
      Booted smallMap 0 1 c written := by
  obtain ⟨start, n, c, written, hc, rfl, rfl, hb⟩ :=
    booted_createPageBitmap smallMap (fun _ => 7) wellFormed_smallMap
  have htotal : c.totalPages = 22 := Option.some.inj hb.total.symm
  rw [htotal] at hb
  exact ⟨c, written, hc, htotal, hb⟩

namespace Counters

def step (c : Counters) : Account.Call → Option Counters
  | .alloc => c.alloc.map Prod.snd
  | .addRef ppn => some (c.addRef ppn)
  | .free ppn => c.free ppn

/-- No counter goes over the top or below zero. -/
def InRange (c : Counters) : Account.Call → Prop
  | .alloc => True
  | .addRef ppn => ppn < c.totalPages → c.pagemap ppn ≠ 255
  | .free ppn => ppn < c.totalPages → c.pagemap ppn ≠ 0

instance (c : Counters) : ∀ call, Decidable (c.InRange call)
  | .alloc => isTrue trivial
  | .addRef ppn => inferInstanceAs (Decidable (ppn < c.totalPages → c.pagemap ppn ≠ 255))
  | .free ppn => inferInstanceAs (Decidable (ppn < c.totalPages → c.pagemap ppn ≠ 0))

variable {c c' : Counters} {f : ℕ}

theorem pagemap_atomicAdd8 (c : Counters) (ppn : ℕ) (d : UInt8) : (c.atomicAdd8 ppn d).pagemap =
    Function.update c.pagemap ppn (c.pagemap ppn + d) := rfl

theorem freeFrames_atomicAdd8 (c : Counters) (d : UInt8) (hf : f < c.totalPages) :
    (c.atomicAdd8 f d).freeFrames + (if c.pagemap f = 0 then 1 else 0) =
      c.freeFrames + if c.pagemap f + d = 0 then 1 else 0 := by
  have hcard : ∀ s : Finset ℕ, s.card = (s.erase f).card + if f ∈ s then 1 else 0 := by
    intro s
    split_ifs with hs
    · exact (Finset.card_erase_add_one hs).symm
    · rw [Finset.erase_eq_of_notMem hs, Nat.add_zero]
  have herase : ((Finset.range (c.atomicAdd8 f d).totalPages).filter
      fun i => (c.atomicAdd8 f d).pagemap i = 0).erase f =
        ((Finset.range c.totalPages).filter fun i => c.pagemap i = 0).erase f := by
    ext i
    rw [Finset.mem_erase, Finset.mem_erase, Finset.mem_filter, Finset.mem_filter]
    refine and_congr_right fun hi => and_congr_right fun _ => ?_
    rw [pagemap_atomicAdd8, Function.update_of_ne hi]
  have hnew : f ∈ (Finset.range (c.atomicAdd8 f d).totalPages).filter
      (fun i => (c.atomicAdd8 f d).pagemap i = 0) ↔ c.pagemap f + d = 0 := by
    rw [Finset.mem_filter, Finset.mem_range, pagemap_atomicAdd8, Function.update_self]
    exact and_iff_right hf
  have hold : f ∈ (Finset.range c.totalPages).filter (fun i => c.pagemap i = 0) ↔
      c.pagemap f = 0 := by
    simp [hf]
  rw [freeFrames, freeFrames, hcard, herase, hcard ((Finset.range c.totalPages).filter _)]
  simp only [hnew, hold]
  omega

/-- The totals agree with the counters. -/
structure Balanced (c : Counters) : Prop where
  small : c.totalPages < 2 ^ 64
  zeros : c.freePageCount = .ofNat c.freeFrames
  used : c.usedPages + c.freePageCount = c.usablePages

namespace Balanced

theorem take (h : c.Balanced) (hf : f < c.totalPages) (hz : c.pagemap f = 0) :
    Balanced { c.atomicAdd8 f 1 with
      freePageCount := c.freePageCount - 1
      usedPages := c.usedPages + 1 } := by
  have hcard := freeFrames_atomicAdd8 c 1 hf
  rw [hz, if_pos rfl, if_neg (by decide)] at hcard
  refine ⟨h.small, ?_, ?_⟩
  · change c.freePageCount - 1 = .ofNat (c.atomicAdd8 f 1).freeFrames
    rw [h.zeros, ← Nat.add_zero c.freeFrames, ← hcard, UInt64.ofNat_add]
    exact UInt64.add_sub_cancel _ _
  · have := h.used
    simp only [atomicAdd8]
    grind

theorem alloc (h : c.Balanced) (ha : c.alloc = some (f, c')) : c'.Balanced := by
  simp only [Counters.alloc, Option.map_eq_some_iff, Prod.mk.injEq] at ha
  obtain ⟨i, hi, rfl, rfl⟩ := ha
  have hz : c.pagemap i = 0 := by simpa using List.find?_some hi
  exact h.take (List.mem_range.mp (List.mem_of_find?_eq_some hi)) hz

theorem keep (h : c.Balanced) (hf : f < c.totalPages) {d : UInt8} (hz : c.pagemap f ≠ 0)
    (hd : c.pagemap f + d ≠ 0) : (c.atomicAdd8 f d).Balanced := by
  have hcard := freeFrames_atomicAdd8 c d hf
  rw [if_neg hz, if_neg hd, Nat.add_zero, Nat.add_zero] at hcard
  exact ⟨h.small, hcard ▸ h.zeros, h.used⟩

theorem addRef (h : c.Balanced) (hok : c.InRange (.addRef f)) : (c.addRef f).Balanced := by
  unfold Counters.addRef
  split_ifs with hge hz
  · exact h
  · exact h.take (by omega) hz
  · refine h.keep (by omega) hz fun h0 => hok (by omega) ?_
    grind

theorem free (h : c.Balanced) (hs : c.free f = some c') : c'.Balanced := by
  unfold Counters.free at hs
  split_ifs at hs with hge hz hone
  · cases hs
    exact h
  · cases hs
    have hcard := freeFrames_atomicAdd8 c (-1) (f := f) (by omega)
    rw [hone, if_neg (by decide), if_pos (by decide), Nat.add_zero] at hcard
    refine ⟨h.small, ?_, ?_⟩
    · change c.freePageCount + 1 = .ofNat (c.atomicAdd8 f (-1)).freeFrames
      rw [h.zeros, hcard, UInt64.ofNat_add]
      rfl
    · have := h.used
      simp only [atomicAdd8]
      grind
  · cases hs
    refine h.keep (by omega) hz fun h0 => hone ?_
    grind

theorem step {call : Account.Call} (h : c.Balanced) (hok : c.InRange call)
    (hs : c.step call = some c') : c'.Balanced := by
  cases call with
  | alloc =>
    obtain ⟨⟨f, c₁⟩, ha, rfl⟩ := Option.map_eq_some_iff.mp hs
    exact h.alloc ha
  | addRef f =>
    cases hs
    exact h.addRef hok
  | free f => exact h.free hs

end Balanced

/-- From boot on, whatever frames are allocated, referenced and freed, the number of free pages
is that of zero counters, and free and used pages together are the usable ones, as long as no
counter overflows or underflows. -/
theorem totals_of_reachable (mmap : MemoryMap) (junk : ℕ → UInt8) (h : mmap.WellFormed)
    (written : List ℕ) (hc : createPageBitmap mmap junk = some (c, written))
    (hr : Run.Reachable step InRange c c') :
    c'.freePageCount.toNat = c'.freeFrames ∧
      c'.usedPages + c'.freePageCount = c'.usablePages := by
  obtain ⟨start, n, c₀, written₀, hc₀, -, -, hb⟩ := booted_createPageBitmap mmap junk h
  obtain ⟨rfl, rfl⟩ := Prod.mk.inj (Option.some.inj (hc₀.symm.trans hc))
  have hsmall : c₀.totalPages < 2 ^ 64 :=
    (MemoryMap.WellFormed.total_le hb.total).trans_lt (by decide)
  have hinit : c₀.Balanced := by
    refine ⟨hsmall, ?_, ?_⟩
    · rw [← hb.free, UInt64.ofNat_toNat]
    · rw [hb.used]
      grind
  have hbal := hr.invariant hinit fun _ _ _ hbal hok hs => hbal.step hok hs
  refine ⟨?_, hbal.used⟩
  have hle : c'.freeFrames ≤ c'.totalPages := by
    rw [freeFrames]
    exact (Finset.card_filter_le _ _).trans (Finset.card_range _).le
  rw [hbal.zeros]
  exact UInt64.toNat_ofNat_of_lt' (hle.trans_lt hbal.small)

/-- Two frames are taken, one of them twice, and that one is given back. -/
def takeAndReturn : List Account.Call := [.alloc, .addRef 1, .alloc, .free 1, .free 1]

def bootedSmall : Counters × List ℕ :=
  (createPageBitmap smallMap fun _ => 7).get (by decide +kernel)

theorem totals_of_reachable_smallMap : ∃ c', takeAndReturn.foldlM step bootedSmall.1 = some c' ∧
    c'.freePageCount.toNat = c'.freeFrames ∧
      c'.usedPages + c'.freePageCount = c'.usablePages := by
  have hguard : Run.Guarded step InRange bootedSmall.1 takeAndReturn := by decide +kernel
  obtain ⟨c', hc'⟩ := Option.isSome_iff_exists.mp
    (show (takeAndReturn.foldlM step bootedSmall.1).isSome from by decide +kernel)
  have hboot : createPageBitmap smallMap (fun _ => 7) = some (bootedSmall.1, bootedSmall.2) := by
    rw [Prod.mk.eta, bootedSmall, Option.some_get]
  exact ⟨c', hc', totals_of_reachable smallMap (fun _ => 7) wellFormed_smallMap _ hboot
    (hguard.reachable hc')⟩

end Counters

end Koerix
