import Koerix.AddrSpace.Beside
import Koerix.Lib.ByteMemory

/-! # Kernel memory

Loads and stores of the kernel go through the kernel's page tables. An access
to a page that is not mapped is a fault in kernel mode, which is a panic.
Within a region whose tables form a tree, the pages behave as one byte memory:
a store changes the bytes it writes, and no others.
-/

namespace Koerix

open BitField ByteMemory

namespace AddrSpace

/-- The byte at an offset into a page. -/
def byteOf (words : ℕ → BitVec 64) (offset : ℕ) : UInt8 :=
  UInt8.ofNat (get (8 * (offset % 8)) 8 (words (offset / 8)))

def setByte (words : ℕ → BitVec 64) (offset : ℕ) (b : UInt8) : ℕ → BitVec 64 := fun w =>
  if w = offset / 8 then set (8 * (offset % 8)) 8 b.toNat (words w) else words w

/-- Clear the bytes from offset `lo` up to `hi`. -/
def clearBytes (words : ℕ → BitVec 64) (lo hi : ℕ) : ℕ → BitVec 64 := fun w =>
  (List.range 8).foldl
    (fun x i => if lo ≤ 8 * w + i ∧ 8 * w + i < hi then set (8 * i) 8 0 x else x) (words w)

/-- The bytes of the mapped virtual addresses. -/
def bytes (pml4 : ℕ) (s : Vm) : View :=
  fun a => (pageMem s pml4 (a / 4096)).map fun words => byteOf words (a % 4096)

def storeByte (pml4 a : ℕ) (b : UInt8) (s : Vm) : Option Vm :=
  (frameAt s pml4 (a / 4096) 4).map fun f => s.setFrame f (setByte (s.mem f) (a % 4096) b)

/-- Store the low `n` bytes of `x` at `a`. -/
def store (pml4 : ℕ) : ℕ → ℕ → ℕ → Vm → Option Vm
  | _, 0, _, s => some s
  | a, n + 1, x, s => do
    let s ← storeByte pml4 a (UInt8.ofNat x) s
    store pml4 (a + 1) n (x / 256) s

/-- The part of `memset` that falls into one page. -/
def clearPage (pml4 a n : ℕ) (s : Vm) (page : ℕ) : Option Vm :=
  (frameAt s pml4 page 4).map fun f =>
    s.setFrame f (clearBytes (s.mem f) (a - 4096 * page) (min 4096 (a + n - 4096 * page)))

/-- Clear `n` bytes at `a`, page by page. -/
def memset (pml4 a n : ℕ) (s : Vm) : Option Vm :=
  if n = 0 then some s
  else (List.range' (a / 4096) ((a + n - 1) / 4096 + 1 - a / 4096)).foldlM (clearPage pml4 a n) s

variable {words : ℕ → BitVec 64} {o p lo hi : ℕ} {b : UInt8}

theorem byteOf_setByte : byteOf (setByte words o b) p = if p = o then b else byteOf words p := by
  unfold byteOf setByte
  rcases eq_or_ne p o with rfl | hp
  · rw [if_pos rfl, if_pos rfl, get_set_same _ _ (by omega), Nat.mod_eq_of_lt b.toNat_lt,
      UInt8.ofNat_toNat]
  · rw [if_neg hp]
    split_ifs with hw
    · rw [get_set_of_disjoint _ _ (by omega)]
    · rfl

theorem get_foldl_clear {w : BitVec 64} {c : ℕ → Prop} [DecidablePred c] {i : ℕ} (hi : i < 8)
    (m : ℕ) : get (8 * i) 8 ((List.range m).foldl
      (fun x i => if c i then set (8 * i) 8 0 x else x) w) =
    if i < m ∧ c i then 0 else get (8 * i) 8 w := by
  induction m with
  | zero => simp
  | succ m ih =>
    rw [List.range_succ, List.foldl_append, List.foldl_cons, List.foldl_nil]
    rcases eq_or_ne i m with rfl | hne
    · by_cases hc : c i
      · rw [if_pos hc, get_set_same _ _ (by omega), if_pos ⟨by omega, hc⟩]
        rfl
      · rw [if_neg hc, ih, if_neg (by omega), if_neg (by tauto)]
    · have hiff : (i < m + 1 ∧ c i) ↔ (i < m ∧ c i) := by
        constructor
        · rintro ⟨h, hc⟩
          exact ⟨by omega, hc⟩
        · rintro ⟨h, hc⟩
          exact ⟨by omega, hc⟩
      simp only [hiff, ← ih]
      split_ifs with hm
      · exact get_set_of_disjoint _ _ (by omega)
      · rfl

theorem byteOf_clearBytes :
    byteOf (clearBytes words lo hi) o = if lo ≤ o ∧ o < hi then 0 else byteOf words o := by
  unfold byteOf clearBytes
  rw [get_foldl_clear (c := fun i => lo ≤ 8 * (o / 8) + i ∧ 8 * (o / 8) + i < hi) (by omega),
    show 8 * (o / 8) + o % 8 = o by omega]
  by_cases hc : lo ≤ o ∧ o < hi
  · rw [if_pos ⟨by omega, hc⟩, if_pos hc]
    rfl
  · rw [if_neg fun h => hc h.2, if_neg hc]

end AddrSpace

namespace Heap

open AddrSpace

/-- `KHEAP_START`. -/
def kheapStart : ℕ := 0xffffff0000000000

/-- `KHEAP_END`, the last address of the heap region. -/
def kheapEnd : ℕ := 0xffffffff7fffffff

/-- The virtual pages of the heap region. -/
def heapPages : Set ℕ := {v | kheapStart ≤ 4096 * v ∧ 4096 * v ≤ kheapEnd}

/-- The bytes of the heap region. -/
def view (pml4 : ℕ) (s : Vm) : View :=
  fun a => if kheapStart ≤ a ∧ a ≤ kheapEnd then bytes pml4 s a else none

/-- The page tables of the heap region form a tree, and its memory is `v`. -/
structure Shows (pml4 : ℕ) (s : Vm) (v : View) : Prop where
  tree : Tree heapPages pml4 s
  view_eq : view pml4 s = v

variable {pml4 a n x page : ℕ} {s s' : Vm} {v v' : View}

theorem page_mem_heapPages (h : kheapStart ≤ a) (h' : a ≤ kheapEnd) : a / 4096 ∈ heapPages := by
  simp only [heapPages, Set.mem_ofPred_eq, kheapStart, kheapEnd] at *
  omega

theorem mem_heapPages_iff : page ∈ heapPages ↔ kheapStart ≤ 4096 * page ∧ 4096 * page ≤ kheapEnd :=
  Iff.rfl

namespace Shows

theorem bounds (h : Shows pml4 s v) (hp : v a ≠ none) : kheapStart ≤ a ∧ a ≤ kheapEnd := by
  rw [← h.view_eq, view] at hp
  by_contra hc
  exact hp (if_neg hc)

theorem apply (h : Shows pml4 s v) (hlo : kheapStart ≤ a) (hhi : a ≤ kheapEnd) :
    v a = (pageMem s pml4 (a / 4096)).map fun words => byteOf words (a % 4096) := by
  rw [← h.view_eq, view, if_pos ⟨hlo, hhi⟩, bytes]

theorem exists_frame (h : Shows pml4 s v) (hp : v a ≠ none) :
    ∃ f, frameAt s pml4 (a / 4096) 4 = some f := by
  obtain ⟨hlo, hhi⟩ := h.bounds hp
  rw [h.apply hlo hhi, pageMem] at hp
  refine Option.ne_none_iff_exists'.mp fun hn => hp ?_
  rw [hn]
  rfl

theorem frame_none_iff (h : Shows pml4 s v) (hp : page ∈ heapPages) :
    frameAt s pml4 page 4 = none ↔ v (4096 * page) = none := by
  rw [h.apply hp.1 hp.2, pageMem, Nat.mul_div_cancel_left _ (by decide)]
  simp

theorem bytes_eq (h : Shows pml4 s v) (hp : v a ≠ none) : bytes pml4 s a = v a := by
  obtain ⟨hlo, hhi⟩ := h.bounds hp
  rw [h.apply hlo hhi]
  rfl

theorem load_eq (h : Shows pml4 s v) (hp : ∀ p, a ≤ p → p < a + n → v p ≠ none) :
    load (bytes pml4 s) a n = load v a n := by
  exact load_congr fun p hlo hhi => h.bytes_eq (hp p hlo hhi)

theorem of_rest (h : Shows pml4 s v) (hrest : Rest heapPages pml4 page s s')
    (hpage : page ∈ heapPages)
    (hout : ∀ p, p / 4096 ≠ page → v' p = v p)
    (hin : ∀ p, p / 4096 = page →
      v' p = (pageMem s' pml4 page).map fun words => byteOf words (p % 4096)) :
    Shows pml4 s' v' := by
  refine ⟨hrest.tree, funext fun p => ?_⟩
  unfold view bytes
  rw [mem_heapPages_iff] at hpage
  rcases eq_or_ne (p / 4096) page with hp | hp
  · rw [if_pos (by simp only [kheapStart, kheapEnd] at *; omega), hp, hin p hp]
  · rw [hout p hp]
    split_ifs with hc
    · rw [hrest.page _ (page_mem_heapPages hc.1 hc.2) hp, h.apply hc.1 hc.2]
    · rw [← h.view_eq, view, if_neg hc]

theorem storeByte (h : Shows pml4 s v) (hp : v a ≠ none) (b : UInt8) :
    ∃ s', AddrSpace.storeByte pml4 a b s = some s' ∧ s'.pageMap = s.pageMap ∧
      Shows pml4 s' (Function.update v a (some b)) ∧
      ∀ grow, Beside grow heapPages pml4 s s' := by
  obtain ⟨hlo, hhi⟩ := h.bounds hp
  have hpage := page_mem_heapPages hlo hhi
  obtain ⟨f, hf⟩ := h.exists_frame hp
  obtain ⟨hrest, hf'⟩ := h.tree.setPage hpage hf (setByte (s.mem f) (a % 4096) b)
  refine ⟨s.setFrame f (setByte (s.mem f) (a % 4096) b), by rw [AddrSpace.storeByte, hf]; rfl, rfl,
    h.of_rest hrest hpage ?_ ?_, fun _ => h.tree.setPage_beside hpage hf _⟩
  · intro p hne
    rw [Function.update_of_ne]
    rintro rfl
    exact hne rfl
  · intro p hpp
    rw [pageMem, hf', Option.map_some, Option.map_some, Vm.mem_setFrame_self, byteOf_setByte]
    split_ifs with ho
    · obtain rfl : p = a := by omega
      rw [Function.update_self]
    · have hne : p ≠ a := fun he => ho (by rw [he])
      have hq := page_mem_heapPages hlo hhi
      rw [mem_heapPages_iff] at hq
      rw [Function.update_of_ne hne, h.apply (by simp only [kheapStart] at *; omega)
        (by simp only [kheapEnd] at *; omega), hpp, pageMem, hf]
      rfl

theorem store (h : Shows pml4 s v) (hp : ∀ p, a ≤ p → p < a + n → v p ≠ none) :
    ∃ s', AddrSpace.store pml4 a n x s = some s' ∧ s'.pageMap = s.pageMap ∧
      Shows pml4 s' (write v a n x) ∧ ∀ grow, Beside grow heapPages pml4 s s' := by
  induction n generalizing a x s v with
  | zero => exact ⟨s, rfl, rfl, by rwa [write_zero], fun grow => .refl grow _ _ s⟩
  | succ n ih =>
    obtain ⟨s₁, hs₁, hpm₁, h₁, hb₁⟩ := h.storeByte (hp a le_rfl (by omega)) (UInt8.ofNat x)
    obtain ⟨s₂, hs₂, hpm₂, h₂, hb₂⟩ := ih (a := a + 1) (x := x / 256) h₁ fun p hlo hhi => by
      rw [Function.update_of_ne (by omega)]
      exact hp p (by omega) (by omega)
    refine ⟨s₂, by simp [AddrSpace.store, hs₁, hs₂], hpm₂.trans hpm₁, ?_,
      fun grow => (hb₁ grow).trans (hb₂ grow)⟩
    rwa [write_succ]

theorem clearPage (h : Shows pml4 s v) (hpage : page ∈ heapPages)
    (hp : v (4096 * page) ≠ none) :
    ∃ s', AddrSpace.clearPage pml4 a n s page = some s' ∧ s'.pageMap = s.pageMap ∧
      (Shows pml4 s' fun p => if p / 4096 = page ∧ a ≤ p ∧ p < a + n then some 0 else v p) ∧
      ∀ grow, Beside grow heapPages pml4 s s' := by
  obtain ⟨f, hf⟩ := h.exists_frame hp
  rw [Nat.mul_div_cancel_left _ (by decide)] at hf
  obtain ⟨hrest, hf'⟩ := h.tree.setPage hpage hf
    (clearBytes (s.mem f) (a - 4096 * page) (min 4096 (a + n - 4096 * page)))
  refine ⟨s.setFrame f (clearBytes (s.mem f) (a - 4096 * page) (min 4096 (a + n - 4096 * page))),
    by rw [AddrSpace.clearPage, hf]; rfl, rfl, h.of_rest hrest hpage ?_ ?_,
    fun _ => h.tree.setPage_beside hpage hf _⟩
  · intro p hne
    exact if_neg fun hc => hne hc.1
  · intro p hpp
    rw [pageMem, hf', Option.map_some, Option.map_some, Vm.mem_setFrame_self, byteOf_clearBytes]
    by_cases hc : a ≤ p ∧ p < a + n
    · rw [if_pos ⟨hpp, hc⟩, if_pos (by omega)]
    · rw [mem_heapPages_iff] at hpage
      rw [if_neg fun h => hc h.2, if_neg (by omega),
        h.apply (by simp only [kheapStart] at *; omega) (by simp only [kheapEnd] at *; omega),
        hpp, pageMem, hf]
      rfl

/-- The loop of `memset` over the pages from `q` on. -/
theorem clearPages {q m : ℕ} (h : Shows pml4 s v)
    (hp : ∀ r, q ≤ r → r < q + m → r ∈ heapPages ∧ v (4096 * r) ≠ none) :
    ∃ s', (List.range' q m).foldlM (AddrSpace.clearPage pml4 a n) s = some s' ∧
      s'.pageMap = s.pageMap ∧ (Shows pml4 s' fun p =>
        if (q ≤ p / 4096 ∧ p / 4096 < q + m) ∧ a ≤ p ∧ p < a + n then some 0 else v p) ∧
      ∀ grow, Beside grow heapPages pml4 s s' := by
  induction m generalizing q s v with
  | zero =>
    exact ⟨s, rfl, rfl, by simpa [show ∀ p : ℕ, ¬ (q ≤ p ∧ p < q) by omega] using h,
      fun grow => .refl grow _ _ s⟩
  | succ m ih =>
    obtain ⟨hq, hvq⟩ := hp q le_rfl (by omega)
    obtain ⟨s₁, hs₁, hpm₁, h₁, hb₁⟩ := h.clearPage (a := a) (n := n) hq hvq
    obtain ⟨s₂, hs₂, hpm₂, h₂, hb₂⟩ := ih (q := q + 1) h₁ fun r hlo hhi => by
      obtain ⟨hr, hvr⟩ := hp r (by omega) (by omega)
      refine ⟨hr, ?_⟩
      split_ifs
      · simp
      · exact hvr
    refine ⟨s₂, by simp [List.range'_succ, hs₁, hs₂], hpm₂.trans hpm₁, ?_,
      fun grow => (hb₁ grow).trans (hb₂ grow)⟩
    convert h₂ using 2 with p
    by_cases hc : a ≤ p ∧ p < a + n
    · by_cases hpq : p / 4096 = q
      · rw [if_pos (by omega), if_neg (by omega), if_pos ⟨hpq, hc⟩]
      · by_cases hlt : q + 1 ≤ p / 4096 ∧ p / 4096 < q + 1 + m
        · rw [if_pos (by omega), if_pos ⟨hlt, hc⟩]
        · rw [if_neg (by omega), if_neg (by omega), if_neg (by omega)]
    · rw [if_neg (by tauto), if_neg (by tauto), if_neg (by tauto)]

/-- `memset` clears exactly its range. -/
theorem memset (h : Shows pml4 s v) (hp : ∀ p, a ≤ p → p < a + n → v p ≠ none) :
    ∃ s', AddrSpace.memset pml4 a n s = some s' ∧ s'.pageMap = s.pageMap ∧
      Shows pml4 s' (write v a n 0) ∧ ∀ grow, Beside grow heapPages pml4 s s' := by
  unfold AddrSpace.memset
  split_ifs with hn
  · exact ⟨s, rfl, rfl, by rwa [hn, write_zero], fun grow => .refl grow _ _ s⟩
  obtain ⟨s', hs', hpm, h', hb⟩ := h.clearPages (a := a) (n := n) (q := a / 4096)
      (m := (a + n - 1) / 4096 + 1 - a / 4096) fun r hlo hhi => by
    -- some address of the range is in the page
    have hmem : v (max a (4096 * r)) ≠ none := hp _ (by omega) (by omega)
    obtain ⟨f, hf⟩ := h.exists_frame hmem
    obtain ⟨h₁, h₂⟩ := h.bounds hmem
    have hpr : max a (4096 * r) / 4096 = r := by omega
    have hr : r ∈ heapPages := hpr ▸ page_mem_heapPages h₁ h₂
    rw [hpr] at hf
    refine ⟨hr, fun hnone => ?_⟩
    rw [(h.frame_none_iff hr).mpr hnone] at hf
    cases hf
  refine ⟨s', hs', hpm, ?_, hb⟩
  convert h' using 2 with p
  unfold write
  by_cases hc : a ≤ p ∧ p < a + n
  · rw [if_pos hc, if_pos (by omega), Nat.zero_div]
    rfl
  · rw [if_neg hc, if_neg (by tauto)]

/-- A page that `map` adds has some contents, and the others keep theirs. -/
def Grows (v v' : View) (page : ℕ) : Prop :=
  (∀ p, p / 4096 ≠ page → v' p = v p) ∧ ∀ p, p / 4096 = page → v' p ≠ none

theorem map (flags : MapFlags) (h : Shows pml4 s v) (hpage : page ∈ heapPages)
    (hun : v (4096 * page) = none) :
    (∀ n s₁ s', s.alloc = some (n, s₁) → AddrSpace.map pml4 page n flags s₁ = some s' →
      Beside true heapPages pml4 s s' ∧ ∃ v', Shows pml4 s' v' ∧ Grows v v' page) ∧
    (4 ≤ s.pageMap.freeFrames → ∃ n s₁ s', s.alloc = some (n, s₁) ∧
      AddrSpace.map pml4 page n flags s₁ = some s' ∧
      s.pageMap.freeFrames ≤ s'.pageMap.freeFrames + 4) := by
  obtain ⟨hsound, htotal⟩ := h.tree.map flags hpage ((h.frame_none_iff hpage).mpr hun)
  refine ⟨fun n s₁ s' ha hm => ?_, htotal⟩
  obtain ⟨hrest, hf⟩ := hsound n s₁ s' ha hm
  refine ⟨h.tree.map_beside hpage ((h.frame_none_iff hpage).mpr hun) ha hm,
    fun p => if p / 4096 = page then some (byteOf (s'.mem n) (p % 4096)) else v p,
    h.of_rest hrest hpage (fun p hne => if_neg hne) fun p hp => ?_, fun p hne => if_neg hne,
    fun p hp => by simp [hp]⟩
  rw [if_pos hp, pageMem, hf]
  rfl

theorem unmap (h : Shows pml4 s v) (hpage : page ∈ heapPages) (hm : v (4096 * page) ≠ none) :
    ∃ s', AddrSpace.unmap pml4 page s = some s' ∧ Beside false heapPages pml4 s s' ∧
      Shows pml4 s' fun p => if p / 4096 = page then none else v p := by
  obtain ⟨f, hf⟩ := h.exists_frame hm
  rw [Nat.mul_div_cancel_left _ (by decide)] at hf
  obtain ⟨s', hs', hrest, hnone⟩ := h.tree.unmap hpage hf
  refine ⟨s', hs', h.tree.unmap_beside hpage hf hs',
    h.of_rest hrest hpage (fun p hne => if_neg hne) fun p hp => ?_⟩
  rw [if_pos hp, pageMem, hnone]
  rfl

end Shows

/-- The memory is `v`, and nothing beside the heap has changed since `s₀`. -/
structure ShowsFrom (grow : Bool) (pml4 : ℕ) (s₀ s : Vm) (v : View) : Prop where
  shows : Shows pml4 s v
  beside : Beside grow heapPages pml4 s₀ s

theorem Shows.start (h : Shows pml4 s v) (grow : Bool) : ShowsFrom grow pml4 s s v :=
  ⟨h, .refl grow heapPages pml4 s⟩

end Heap

end Koerix
