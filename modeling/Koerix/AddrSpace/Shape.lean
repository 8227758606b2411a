import Koerix.AddrSpace.Path
import Koerix.Lib.InDegree

/-! # The shape of the user tables

Every frame in use below some PML4 has one position: a depth and a prefix. An
entry of a table at depth `d` points to a frame one level deeper whose prefix
continues that of the table, so tables may be shared between address spaces
but never between different places of one. Counters are exact up to the width
of the counter, and a writable entry is the only reference to its frame.
Entries of shared mappings are the exception: they hold no reference, and the
frame they point to belongs to the rest of the kernel.

`held` counts the references that are not table entries: those of the live
address spaces to their PML4, of the rest of the kernel, and of the running
operation to a frame that it has allocated and not yet linked.
-/

namespace Koerix

open GenericPagingTable InDegree

namespace AddrSpace

/-- The depth and the prefix of each frame that user tables use. -/
abbrev Positions := ℕ → Option (ℕ × ℕ)

/-- Index `i` is a user entry of the table `t`, which is at depth `d` with prefix `q`. -/
structure Slot (pos : Positions) (t i d q : ℕ) : Prop where
  pos_eq : pos t = some (d, q)
  depth : d < 4
  index : i < entryCount (3 - d)

/-- Number of user entries of a frame at the given position. -/
def width : Option (ℕ × ℕ) → ℕ
  | some (d, _) => if d < 4 then entryCount (3 - d) else 0
  | none => 0

/-- The user entries of all tables. -/
def slots (total : ℕ) (pos : Positions) : Finset (ℕ × ℕ) :=
  (Finset.range total ×ˢ Finset.range 512).filter fun k => k.2 < width (pos k.1)

/-- The frame that an entry holds a reference to. -/
def counted (e : GenericPagingTable) : Option ℕ :=
  if present e && !shared e then some (ppn e) else none

def target (s : Vm) (k : ℕ × ℕ) : Option ℕ := counted (s.entry k.1 k.2)

/-- The references to a frame: entries that point to it, and those held otherwise. -/
def count (s : Vm) (pos : Positions) (held : ℕ → ℕ) (f : ℕ) : ℕ :=
  deg (slots s.pageMap.totalPages pos) (target s) f + held f

/-- What holds of a present entry at index `i` of a table at depth `d` with prefix `q`. -/
structure EntryOk (total : ℕ) (pos : Positions) (refs : ℕ → ℕ) (d q i : ℕ)
    (e : GenericPagingTable) : Prop where
  child : shared e = false → ppn e < total → pos (ppn e) = some (d + 1, 512 * q + i)
  device : shared e = true → ppn e < total → pos (ppn e) = none ∧ 0 < refs (ppn e)
  upper : d < 3 → ppn e < total ∧ shared e = false ∧ writable e = true ∧ user e = true ∧
    noExec e = false
  owned : write e = true → shared e = false → ppn e < total → refs (ppn e) = 1

structure Shape (s : Vm) (live : List ℕ) (pos : Positions) (held : ℕ → ℕ) : Prop where
  bounded : ∀ {f d q}, pos f = some (d, q) → f < s.pageMap.totalPages ∧ d ≤ 4
  root : ∀ {f q}, pos f = some (0, q) ↔ f ∈ live ∧ q = 0
  entries : ∀ {t i d q}, Slot pos t i d q → present (s.entry t i) = true →
    EntryOk s.pageMap.totalPages pos (count s pos held) d q i (s.entry t i)
  refs : ∀ {f}, f < s.pageMap.totalPages →
    s.pageMap.pagemap f = UInt8.ofNat (count s pos held f)
  used : ∀ {f p}, pos f = some p → 0 < count s pos held f

/-- The references that are not table entries while no operation is running. -/
def restHeld (base : ℕ → ℕ) (live : List ℕ) (f : ℕ) : ℕ := base f + if f ∈ live then 1 else 0

/-- The shape between operations: `base` counts the references that the rest of the kernel
holds, and there are fewer live address spaces than an 8-bit counter can count. -/
structure Settled (base : ℕ → ℕ) (s : Vm) (live : List ℕ) (pos : Positions) : Prop
    extends Shape s live pos (restHeld base live) where
  nodup : live.Nodup
  few : live.length < 256
  base_lt : ∀ f, base f < 256
  base_pos : ∀ {f p}, pos f = some p → base f = 0

variable {s s' : Vm} {live : List ℕ} {pos : Positions} {held base : ℕ → ℕ}
  {f g t i d q n virt total : ℕ}

theorem entryCount_le (level : ℕ) : entryCount level ≤ 512 := by
  unfold entryCount; split_ifs <;> omega

theorem Slot.width_eq (h : Slot pos t i d q) : width (pos t) = entryCount (3 - d) := by
  simp [width, h.pos_eq, h.depth]

theorem width_le (p : Option (ℕ × ℕ)) : width p ≤ 512 := by
  unfold width
  split
  · split_ifs
    · exact entryCount_le _
    · omega
  · omega

theorem mem_slots : (t, i) ∈ slots total pos ↔ t < total ∧ ∃ d q, Slot pos t i d q := by
  simp only [slots, Finset.mem_filter, Finset.mem_product, Finset.mem_range]
  constructor
  · rintro ⟨⟨ht, _⟩, hw⟩
    refine ⟨ht, ?_⟩
    rcases hp : pos t with _ | ⟨d, q⟩
    · simp [width, hp] at hw
    · simp only [width, hp] at hw
      split_ifs at hw with hd
      · exact ⟨d, q, hp, hd, hw⟩
      · omega
  · rintro ⟨ht, d, q, h⟩
    have := h.index
    exact ⟨⟨ht, lt_of_lt_of_le h.index (entryCount_le _)⟩, by rwa [h.width_eq]⟩

theorem target_eq_some_iff {k : ℕ × ℕ} : target s k = some f ↔
    (present (s.entry k.1 k.2) = true ∧ shared (s.entry k.1 k.2) = false) ∧
      ppn (s.entry k.1 k.2) = f := by
  simp [target, counted]

theorem Slot.unique {d' q' : ℕ} (h : Slot pos t i d q) (h' : Slot pos t i d' q') :
    d' = d ∧ q' = q := by
  have he := h.pos_eq.symm.trans h'.pos_eq
  simp only [Option.some.injEq, Prod.mk.injEq] at he
  exact ⟨he.1.symm, he.2.symm⟩

namespace Shape

variable (h : Shape s live pos held)

include h

theorem slot_lt (hs : Slot pos t i d q) : t < s.pageMap.totalPages := (h.bounded hs.pos_eq).1

theorem slot_mem (hs : Slot pos t i d q) : (t, i) ∈ slots s.pageMap.totalPages pos :=
  mem_slots.mpr ⟨h.slot_lt hs, d, q, hs⟩

theorem pos_of_target (hk : (t, i) ∈ slots s.pageMap.totalPages pos)
    (ht : target s (t, i) = some f) (hf : f < s.pageMap.totalPages) :
    ∃ d q, Slot pos t i d q ∧ pos f = some (d + 1, 512 * q + i) := by
  obtain ⟨_, d, q, hs⟩ := mem_slots.mp hk
  obtain ⟨⟨hp, hsh⟩, rfl⟩ := target_eq_some_iff.mp ht
  exact ⟨d, q, hs, (h.entries hs hp).child hsh hf⟩

theorem deg_eq_zero (hf : f < s.pageMap.totalPages) (hp : pos f = none) :
    deg (slots s.pageMap.totalPages pos) (target s) f = 0 := by
  refine deg_eq_zero_iff.mpr ?_
  rintro ⟨t, i⟩ hk ht
  obtain ⟨d, q, _, he⟩ := h.pos_of_target hk ht hf
  simp [hp] at he

theorem deg_root (hf : f ∈ live) :
    deg (slots s.pageMap.totalPages pos) (target s) f = 0 := by
  have hp : pos f = some (0, 0) := h.root.mpr ⟨hf, rfl⟩
  refine deg_eq_zero_iff.mpr ?_
  rintro ⟨t, i⟩ hk ht
  obtain ⟨d, q, _, he⟩ := h.pos_of_target hk ht (h.bounded hp).1
  simp [hp] at he

theorem frameAt_slot {r : ℕ} (hr : r ∈ live) (hv : virt < userPages) (hd : d < 4)
    (hf : frameAt s r virt d = some t) :
    Slot pos t (tableIndex (3 - d) virt) d (prefixAt d virt) := by
  refine ⟨?_, hd, tableIndex_lt_entryCount hv⟩
  induction d generalizing t with
  | zero =>
    cases hf
    rw [prefixAt_zero hv]
    exact h.root.mpr ⟨hr, rfl⟩
  | succ d ih =>
    obtain ⟨u, hu, hp, rfl⟩ := frameAt_succ_eq_some_iff.mp hf
    have hs : Slot pos u (tableIndex (3 - d) virt) d (prefixAt d virt) :=
      ⟨ih (by omega) hu, by omega, tableIndex_lt_entryCount hv⟩
    have hok := h.entries hs hp
    obtain ⟨hlt, hsh, -⟩ := hok.upper (by omega)
    rw [prefixAt_succ (by omega)]
    exact hok.child hsh hlt

theorem walk_eq {r : ℕ} (hr : r ∈ live) (hv : virt < userPages)
    (hent : ∀ t i d q, Slot pos t i d q → s'.entry t i = s.entry t i) :
    walk s' r virt = walk s r virt :=
  walk_congr fun k hk t ht => hent t _ k _ (h.frameAt_slot hr hv hk ht)

end Shape

namespace Settled

variable (h : Settled base s live pos)

include h

theorem held_eq {p : ℕ × ℕ} (hp : pos f = some p) (hd : p.1 ≠ 0) : restHeld base live f = 0 := by
  have hl : f ∉ live := by
    intro hf
    have hr := h.root.mpr ⟨hf, rfl⟩
    rw [hp] at hr
    cases hr
    exact hd rfl
  simp [restHeld, hl, h.base_pos hp]

theorem exists_slot (hp : pos f = some (d + 1, q)) :
    ∃ t i q', Slot pos t i d q' ∧ q = 512 * q' + i ∧ present (s.entry t i) = true ∧
      ppn (s.entry t i) = f := by
  have hc := h.used hp
  rw [count, h.held_eq hp (by simp)] at hc
  obtain ⟨⟨t, i⟩, hk, ht⟩ := deg_pos_iff.mp hc
  obtain ⟨d', q', hs, he⟩ := h.pos_of_target hk ht (h.bounded hp).1
  rw [hp] at he
  simp only [Option.some.injEq, Prod.mk.injEq, Nat.add_right_cancel_iff] at he
  obtain ⟨rfl, rfl⟩ := he
  obtain ⟨⟨hpres, -⟩, hppn⟩ := target_eq_some_iff.mp ht
  exact ⟨t, i, q', hs, rfl, hpres, hppn⟩

omit h in
theorem frameAt_child {r : ℕ} (hs : Slot pos t i d q)
    (hp : present (s.entry t i) = true) (hppn : ppn (s.entry t i) = f)
    (hf : ∀ virt, prefixAt d virt = q → frameAt s r virt d = some t) (virt : ℕ)
    (hv : prefixAt (d + 1) virt = 512 * q + i) : frameAt s r virt (d + 1) = some f := by
  rw [prefixAt_succ hs.depth] at hv
  have hi : i < 512 := lt_of_lt_of_le hs.index (entryCount_le _)
  have hj := tableIndex_lt (3 - d) virt
  obtain ⟨hq, hi⟩ : prefixAt d virt = q ∧ tableIndex (3 - d) virt = i := by omega
  refine frameAt_succ_eq_some_iff.mpr ⟨t, hf virt hq, ?_⟩
  rw [hi]
  exact ⟨hp, hppn⟩

theorem exists_root (hp : pos f = some (d, q)) :
    ∃ r ∈ live, ∀ virt, prefixAt d virt = q → frameAt s r virt d = some f := by
  induction d generalizing f q with
  | zero => exact ⟨f, (h.root.mp hp).1, fun _ _ => rfl⟩
  | succ d ih =>
    obtain ⟨t, i, q', hs, rfl, hpres, hppn⟩ := h.exists_slot hp
    obtain ⟨r, hr, hf⟩ := ih hs.pos_eq
    exact ⟨r, hr, frameAt_child hs hpres hppn hf⟩

theorem exists_other_root (hp : pos f = some (d + 1, q))
    (htwo : 2 ≤ count s pos (restHeld base live) f) (r : ℕ) :
    ∃ r' ∈ live, r' ≠ r ∧ ∀ virt, prefixAt (d + 1) virt = q →
      frameAt s r' virt (d + 1) = some f := by
  rw [count, h.held_eq hp (by simp)] at htwo
  obtain ⟨⟨t₁, i₁⟩, hk₁, ⟨t₂, i₂⟩, hk₂, ht₁, ht₂, hne⟩ := exists_ne_of_one_lt_deg htwo
  have hlt := (h.bounded hp).1
  obtain ⟨d₁, q₁, hs₁, he₁⟩ := h.pos_of_target hk₁ ht₁ hlt
  obtain ⟨d₂, q₂, hs₂, he₂⟩ := h.pos_of_target hk₂ ht₂ hlt
  rw [hp] at he₁ he₂
  simp only [Option.some.injEq, Prod.mk.injEq, Nat.add_right_cancel_iff] at he₁ he₂
  have hi₁ : i₁ < 512 := lt_of_lt_of_le hs₁.index (entryCount_le _)
  have hi₂ : i₂ < 512 := lt_of_lt_of_le hs₂.index (entryCount_le _)
  obtain ⟨rfl, hq₁⟩ := he₁
  obtain ⟨rfl, hq₂⟩ := he₂
  obtain ⟨rfl, rfl⟩ : q₁ = q₂ ∧ i₁ = i₂ := by omega
  obtain ⟨r₁, hr₁, hf₁⟩ := h.exists_root hs₁.pos_eq
  obtain ⟨r₂, hr₂, hf₂⟩ := h.exists_root hs₂.pos_eq
  have hr : r₁ ≠ r₂ := by
    rintro rfl
    have := hf₁ _ (prefixAt_pageAt d q₁)
    rw [hf₂ _ (prefixAt_pageAt d q₁)] at this
    cases this
    exact hne rfl
  obtain ⟨⟨hp₁, -⟩, hppn₁⟩ := target_eq_some_iff.mp ht₁
  obtain ⟨⟨hp₂, -⟩, hppn₂⟩ := target_eq_some_iff.mp ht₂
  rcases eq_or_ne r₁ r with rfl | hr₁'
  · exact ⟨r₂, hr₂, hr.symm, fun v hv => frameAt_child hs₂ hp₂ hppn₂ hf₂ v (hv.trans hq₁)⟩
  · exact ⟨r₁, hr₁, hr₁', fun v hv => frameAt_child hs₁ hp₁ hppn₁ hf₁ v (hv.trans hq₁)⟩

theorem prefix_lt (hp : pos f = some (d + 1, q)) : q < 256 * 512 ^ d := by
  induction d generalizing f q with
  | zero =>
    obtain ⟨t, i, q', hs, rfl, -, -⟩ := h.exists_slot hp
    have hq := (h.root.mp hs.pos_eq).2
    have hi : i < 256 := hs.index
    omega
  | succ d ih =>
    obtain ⟨t, i, q', hs, rfl, -, -⟩ := h.exists_slot hp
    have hq := ih hs.pos_eq
    have hi : i < 512 := lt_of_lt_of_le hs.index (entryCount_le _)
    rw [pow_succ]
    omega

theorem lt_userPages (hp : pos f = some (d + 1, q)) (hv : prefixAt (d + 1) virt = q) :
    virt < userPages := by
  have hd := (h.bounded hp).2
  have hq := h.prefix_lt hp
  rw [← hv, prefixAt, Nat.div_lt_iff_lt_mul (Nat.pow_pos (by decide)), mul_assoc, ← pow_add,
    show d + (4 - (d + 1)) = 3 by omega] at hq
  exact hq

theorem pageAt_lt (hp : pos f = some (d, q)) : pageAt d q < userPages := by
  cases d with
  | zero =>
    rw [(h.root.mp hp).2, pageAt, Nat.zero_mul]
    decide
  | succ d => exact h.lt_userPages hp (prefixAt_pageAt (d + 1) q)

/-- A frame has at most one referring entry for each live address space. -/
theorem deg_le_length (hf : f < s.pageMap.totalPages) :
    deg (slots s.pageMap.totalPages pos) (target s) f ≤ live.length := by
  classical
  have hroot : ∀ k : ℕ × ℕ, ∃ r, ∀ d q, Slot pos k.1 k.2 d q →
      r ∈ live ∧ ∀ virt, prefixAt d virt = q → frameAt s r virt d = some k.1 := by
    rintro ⟨t, i⟩
    by_cases hs : ∃ d q, Slot pos t i d q
    · obtain ⟨d, q, hs⟩ := hs
      obtain ⟨r, hr, hpath⟩ := h.exists_root hs.pos_eq
      refine ⟨r, fun d' q' hs' => ?_⟩
      obtain ⟨rfl, rfl⟩ := hs.unique hs'
      exact ⟨hr, hpath⟩
    · exact ⟨0, fun d q hs' => absurd ⟨d, q, hs'⟩ hs⟩
  choose root hroot using hroot
  calc deg (slots s.pageMap.totalPages pos) (target s) f
      ≤ live.toFinset.card := ?_
    _ ≤ live.length := List.toFinset_card_le live
  refine deg_le_card root ?_ ?_
  · rintro k hk -
    obtain ⟨_, d, q, hs⟩ := mem_slots.mp hk
    exact List.mem_toFinset.mpr (hroot k d q hs).1
  · rintro ⟨t, i⟩ hk ⟨t', i'⟩ hk' ht ht' he
    obtain ⟨d, q, hs, hp⟩ := h.pos_of_target hk ht hf
    obtain ⟨d', q', hs', hp'⟩ := h.pos_of_target hk' ht' hf
    rw [hp] at hp'
    simp only [Option.some.injEq, Prod.mk.injEq, Nat.add_right_cancel_iff] at hp'
    have hi : i < 512 := lt_of_lt_of_le hs.index (entryCount_le _)
    have hi' : i' < 512 := lt_of_lt_of_le hs'.index (entryCount_le _)
    obtain ⟨rfl, hq⟩ := hp'
    obtain ⟨rfl, rfl⟩ : q = q' ∧ i = i' := by omega
    have hpath := (hroot (t, i) d q hs).2 _ (prefixAt_pageAt d q)
    have hpath' := (hroot (t', i) d q hs').2 _ (prefixAt_pageAt d q)
    rw [he, hpath'] at hpath
    obtain rfl : t' = t := Option.some.inj hpath
    rfl

/-- If every frame on a path down to depth `d` has one reference, no other path leads there. -/
theorem sole_owner {r r' v' : ℕ} (hr : r ∈ live) (hr' : r' ∈ live) (hv : virt < userPages)
    (hv' : v' < userPages) (hd : d ≤ 4) (hf : frameAt s r virt d = some f)
    (hf' : frameAt s r' v' d = some f)
    (hone : ∀ k < d, ∀ e, entryAt s r virt k = some e → shared e = false ∧
      ppn e < s.pageMap.totalPages ∧ count s pos (restHeld base live) (ppn e) = 1) :
    r' = r ∧ prefixAt d v' = prefixAt d virt := by
  induction d generalizing f with
  | zero =>
    cases hf
    cases hf'
    exact ⟨rfl, by rw [prefixAt_zero hv, prefixAt_zero hv']⟩
  | succ d ih =>
    obtain ⟨t, ht, hp, rfl⟩ := frameAt_succ_eq_some_iff.mp hf
    obtain ⟨t', ht', hp', hppn⟩ := frameAt_succ_eq_some_iff.mp hf'
    have hs := h.frameAt_slot hr hv (by omega) ht
    have hs' := h.frameAt_slot hr' hv' (by omega) ht'
    obtain ⟨hsh, hlt, hcount⟩ := hone d (Nat.lt_succ_self d) _
      (entryAt_eq_some_iff.mpr ⟨t, ht, rfl, hp⟩)
    have hpos := (h.entries hs hp).child hsh hlt
    have hsh' : shared (s.entry t' (tableIndex (3 - d) v')) = false := by
      rcases hsh' : shared (s.entry t' (tableIndex (3 - d) v')) with _ | _
      · rfl
      · have hnone := ((h.entries hs' hp').device hsh' (hppn ▸ hlt)).1
        rw [hppn, hpos] at hnone
        cases hnone
    have hkey := eq_of_deg_le_one (le_trans (Nat.le_add_right _ _) hcount.le) (h.slot_mem hs)
      (h.slot_mem hs') (target_eq_some_iff.mpr ⟨⟨hp, hsh⟩, rfl⟩)
      (target_eq_some_iff.mpr ⟨⟨hp', hsh'⟩, hppn⟩)
    obtain ⟨rfl, hi⟩ := Prod.mk.inj hkey
    obtain ⟨rfl, hq⟩ := ih (by omega) ht ht' fun k hk => hone k (by omega)
    exact ⟨rfl, by rw [prefixAt_succ (by omega), prefixAt_succ (by omega), hq, hi]⟩

theorem count_lt (hf : f < s.pageMap.totalPages) : count s pos (restHeld base live) f < 256 := by
  unfold count
  rcases hp : pos f with _ | ⟨d, q⟩
  · have hl : f ∉ live := fun hm => by simpa [hp] using h.root.mpr ⟨hm, rfl⟩
    simpa [h.deg_eq_zero hf hp, restHeld, hl] using h.base_lt f
  · rcases Nat.eq_zero_or_pos d with rfl | hd
    · have hl := (h.root.mp hp).1
      simp [h.deg_root hl, restHeld, hl, h.base_pos hp]
    · rw [h.held_eq hp (by simpa using hd.ne')]
      exact lt_of_le_of_lt (h.deg_le_length hf) h.few

theorem counter_eq (hf : f < s.pageMap.totalPages) :
    (s.pageMap.pagemap f).toNat = count s pos (restHeld base live) f := by
  rw [h.refs hf, UInt8.toNat_ofNat']
  exact Nat.mod_eq_of_lt (h.count_lt hf)

theorem getRefs_eq (hf : f < s.pageMap.totalPages) :
    s.pageMap.getRefs f = count s pos (restHeld base live) f := by
  rw [Counters.getRefs, if_neg (by omega), h.counter_eq hf]

theorem pos_none_of_free (hf : f < s.pageMap.totalPages) (hz : s.pageMap.pagemap f = 0) :
    pos f = none ∧ base f = 0 := by
  have hc := h.counter_eq hf
  rw [hz] at hc
  have hpos : pos f = none := by
    by_contra hp
    obtain ⟨p, hp⟩ := Option.ne_none_iff_exists'.mp hp
    have := h.used hp
    simp at hc
    omega
  refine ⟨hpos, ?_⟩
  simp only [count, restHeld, UInt8.toNat_zero] at hc
  omega

end Settled

end AddrSpace

end Koerix
