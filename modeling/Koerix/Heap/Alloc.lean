import Koerix.Heap.Break

/-! # Allocating

`kmalloc` turns the first free block that is large enough into a used one,
splitting off what it does not need, or adds a used block at the end.
-/

namespace Koerix

open AddrSpace ByteMemory

namespace Heap

/-- The heap is made of the given blocks, and its pages are mapped. -/
structure Repr (h : Heap) (v : View) (bs : List Block) : Prop where
  shows : Shows h.pml4 h.vm v
  exact : Exact v h.kheapBreak
  seg : Seg v 0 kheapStart bs 0
  brk : h.kheapBreak = kheapStart + total bs
  limit : h.kheapBreak ≤ kheapEnd + 1
  start : h.heapStart = first kheapStart 0 bs
  last : h.heapLast = lastAddr 0 kheapStart bs

variable {h h' : Heap} {v v' : View} {a n p prev size line function req : ℕ} {blk : Block}
  {bs xs ys : List Block}

theorem Repr.covers (hr : Repr h v bs) : Covers v kheapStart (kheapStart + total bs) :=
  hr.brk ▸ hr.exact.covers

/-- Replacing some blocks by others that take the same memory. -/
theorem Repr.splice {old mid : List Block} {vm : Vm} (hr : Repr h v (xs ++ old ++ ys))
    (hs : Shows h.pml4 vm v') (he : Exact v' h.kheapBreak) (htotal : total mid = total old)
    (hold : old ≠ []) (hmid : mid ≠ []) (hxs : Seg v' 0 kheapStart xs (kheapStart + total xs))
    (hseg : Seg v' (lastAddr 0 kheapStart xs) (kheapStart + total xs) mid
      (first (kheapStart + total xs + total old) 0 ys))
    (hys : Seg v' (lastAddr (lastAddr 0 kheapStart xs) (kheapStart + total xs) mid)
      (kheapStart + total xs + total old) ys 0) :
    Repr { h with vm, heapLast := lastAddr 0 kheapStart (xs ++ mid ++ ys) } v'
      (xs ++ mid ++ ys) where
  shows := hs
  exact := he
  seg := by
    rw [Seg.append, Seg.append, lastAddr_append, total_append, ← Nat.add_assoc, htotal]
    refine ⟨⟨?_, hseg⟩, hys⟩
    cases mid with
    | nil => exact absurd rfl hmid
    | cons => exact hxs
  brk := by
    have := hr.brk
    simp only [total_append] at this ⊢
    omega
  limit := hr.limit
  start := by
    change h.heapStart = _
    rw [hr.start]
    cases xs with
    | nil =>
      cases old with
      | nil => exact absurd rfl hold
      | cons =>
        cases mid with
        | nil => exact absurd rfl hmid
        | cons => rfl
    | cons => rfl
  last := rfl

theorem Repr.splice_inner {old mid : List Block} {vm : Vm} (hr : Repr h v (xs ++ old ++ ys))
    (hs : Shows h.pml4 vm v') (he : Exact v' h.kheapBreak) (htotal : total mid = total old)
    (hold : old ≠ []) (hmid : mid ≠ []) (hne : ys ≠ [])
    (hxs : Seg v' 0 kheapStart xs (kheapStart + total xs))
    (hseg : Seg v' (lastAddr 0 kheapStart xs) (kheapStart + total xs) mid
      (kheapStart + total xs + total old))
    (hys : Seg v' (lastAddr (lastAddr 0 kheapStart xs) (kheapStart + total xs) mid)
      (kheapStart + total xs + total old) ys 0) : Repr { h with vm } v' (xs ++ mid ++ ys) := by
  have hlast : lastAddr 0 kheapStart (xs ++ mid ++ ys) = h.heapLast := by
    have hold' : lastAddr 0 kheapStart (xs ++ old ++ ys) =
        lastAddr (lastAddr 0 kheapStart (xs ++ old)) (kheapStart + total (xs ++ old)) ys :=
      lastAddr_append
    rw [hr.last, lastAddr_append, hold', total_append, total_append, htotal]
    exact lastAddr_congr hne
  have hrepr := hr.splice hs he htotal hold hmid hxs (by
    cases ys with
    | nil => exact absurd rfl hne
    | cons => exact hseg) hys
  rwa [hlast] at hrepr

/-- The search of `kmalloc` ends at the end of the list or at a block that fits. -/
theorem findFit_spec (req : ℕ) (hs : Shows h.pml4 h.vm v) (hseg : Seg v prev a bs 0)
    (hc : Covers v a (a + total bs)) (ha : 0 < a) (hn : bs.length < n) :
    h.findFit req n (first a 0 bs) = some none ∨
      ∃ xs blk ys, bs = xs ++ blk :: ys ∧ blk.available = true ∧ req ≤ blk.size ∧
        h.findFit req n (first a 0 bs) = some (some (a + total xs)) := by
  induction bs generalizing prev a n with
  | nil =>
    obtain ⟨n, rfl⟩ : ∃ m, n = m + 1 := ⟨n - 1, by simp at hn; omega⟩
    exact Or.inl (by simp [findFit, first])
  | cons b bs ih =>
    obtain ⟨n, rfl⟩ : ∃ m, n = m + 1 := ⟨n - 1, by omega⟩
    obtain ⟨hh, hb, hseg⟩ := hseg
    rw [total_cons] at hc
    have hc₀ : Covers v a (a + headerSize) := hc.mono le_rfl (by omega)
    have hstep : h.findFit req (n + 1) a =
        if b.available = true ∧ req ≤ b.size then some (some a)
        else h.findFit req n (first (a + b.size) 0 bs) := by
      have hget := hs.get hc₀
      cases hav : b.available with
      | false => simp [findFit, ha.ne', hget, hh.magic, hh.available, hh.next, hav]
      | true =>
        by_cases hle : req ≤ b.size
        · simp [findFit, ha.ne', hget, hh.magic, hh.available, hh.size, hav, hle]
        · simp [findFit, ha.ne', hget, hh.magic, hh.available, hh.size, hh.next, hav, hle]
    rw [first, hstep]
    by_cases hfit : b.available = true ∧ req ≤ b.size
    · rw [if_pos hfit]
      exact Or.inr ⟨[], b, bs, rfl, hfit.1, hfit.2, by simp⟩
    · rw [if_neg hfit]
      rcases ih hseg (hc.mono (by omega) (by omega)) (by omega) (by simp at hn; omega) with
        hnone | ⟨xs, blk, ys, rfl, hav, hle, hsome⟩
      · exact Or.inl hnone
      · refine Or.inr ⟨b :: xs, blk, ys, rfl, hav, hle, ?_⟩
        rw [hsome, total_cons, Nat.add_assoc]

/-- The memory after `crop`: the block at `a` ends at `c`, where a free block begins. -/
def cropped (v : View) (a c next size excess : ℕ) : View :=
  let v := put (put v a .size size) a .next c
  let v := put (put (put v c .available 1) c .magic heapMagic) c .prev a
  put (put (put v c .next next) c .size excess) next .prev c

section Cropped

variable {c next excess : ℕ}

theorem cropped_apply (ha : p < a ∨ a + headerSize ≤ p) (hc : p < c ∨ c + headerSize ≤ p)
    (hn : p < next ∨ next + headerSize ≤ p) : cropped v a c next req excess p = v p := by
  simp only [cropped, put_apply_of_notMem ha, put_apply_of_notMem hc, put_apply_of_notMem hn]

theorem Covers.cropped {lo hi : ℕ} (hv : Covers v lo hi) :
    Covers (cropped v a c next req excess) lo hi := hv.put.put.put.put.put.put.put.put

theorem Exact.cropped {brk : ℕ} (req excess : ℕ) (he : Exact v brk)
    (ha : Covers v a (a + headerSize))
    (hc : Covers v c (c + headerSize)) (hn : Covers v next (next + headerSize)) :
    Exact (cropped v a c next req excess) brk := by
  have h₂ := (he.put (f := .size) (x := req) ha).put (f := .next) (x := c) ha.put
  have h₄ := (h₂.put (f := .available) (x := 1) hc.put.put).put (f := .magic) (x := heapMagic)
    hc.put.put.put
  have h₆ := (h₄.put (f := .prev) (x := a) hc.put.put.put.put).put (f := .next) (x := next)
    hc.put.put.put.put.put
  exact (h₆.put hc.put.put.put.put.put.put).put hn.put.put.put.put.put.put.put

theorem cropped_seg {b : Block} (hh : Header v a prev next b) (hc : a + headerSize ≤ c)
    (hcn : c + headerSize ≤ next) (hnext : next < 2 ^ 64) :
    Seg (cropped v a c next (c - a) (next - c)) prev a
      [⟨c - a, b.available⟩, ⟨next - c, true⟩] next := by
  have hfirst : a + (c - a) = c := by omega
  unfold cropped
  refine ⟨⟨?_, ?_, ?_, ?_, ?_⟩, by dsimp only; omega, ⟨?_, ?_, ?_, ?_, ?_⟩, by dsimp only; omega,
    trivial⟩ <;> simp (disch := first | decide | (simp only [Field.length]; omega) | omega) only
      [hfirst, first, fetch_put_same, fetch_put_of_ne, fetch_put_of_disjoint, hh.available,
        hh.magic, hh.prev, Bool.toNat_true]

theorem cropped_tail (req excess : ℕ) (hs : Seg v a next ys 0) (hc : a + headerSize ≤ c)
    (hcn : c + headerSize ≤ next) (hnext : next < 2 ^ 64) :
    Seg (cropped v a c next req excess) c next ys 0 := by
  refine Seg.put_prev (hs.congr_outside fun p hp _ => ?_) (by omega)
  simp (disch := omega) only [put_apply_of_notMem]

end Cropped

/-- `crop` splits the rest off if it is more than a header. -/
theorem crop_spec {next : ℕ} {vm₀ vm : Vm} {grow : Bool} (hs : ShowsFrom grow h.pml4 vm₀ vm v)
    (hsize : fetch v a .size = some n)
    (hnext : fetch v a .next = some next) (hreq : headerSize ≤ req) (hn : req + headerSize < n)
    (hc : Covers v a (a + n)) (hc' : Covers v next (next + headerSize)) (hlo : 0 < next)
    (hhi : next < 2 ^ 64) (ha : a + n ≤ next) :
    Yields (crop a req { h with vm }) fun h' => ∃ vm', h' = { h with vm := vm' } ∧
      ShowsFrom grow h.pml4 vm₀ vm' (cropped v a (a + req) next req (n - req)) := by
  have hca : Covers v a (a + headerSize) := hc.mono le_rfl (by omega)
  have hcc : Covers v (a + req) (a + req + headerSize) := hc.mono (by omega) (by omega)
  have hexcess : (n + 2 ^ 64 - req) % 2 ^ 64 = n - req := by omega
  have hmod : (a + req) % 2 ^ 64 = a + req := Nat.mod_eq_of_lt (by omega)
  unfold crop
  refine hs.get_bind hca hsize ?_
  rw [hexcess, if_neg (by omega), hmod]
  refine hs.get_bind hca hnext ?_
  refine hs.set_bind hca fun vm₁ h₁ => ?_
  refine h₁.set_bind hca.put fun vm₂ h₂ => ?_
  -- the link of the cropped block is read again for every field of the new one
  have hlink : fetch (put (put v a .size req) a .next (a + req)) a .next = some (a + req) :=
    fetch_put_same (by simp only [Field.length]; omega)
  have hkeep : ∀ w f x, fetch w a .next = some (a + req) →
      fetch (put w (a + req) f x) a .next = some (a + req) :=
    fun w f x hw => (fetch_put_of_disjoint (by omega)).trans hw
  refine h₂.get_bind hca.put.put hlink (h₂.set_bind hcc.put.put fun vm₃ h₃ => ?_)
  have hlink₃ := hkeep _ .available 1 hlink
  refine h₃.get_bind hca.put.put.put hlink₃ (h₃.set_bind hcc.put.put.put fun vm₄ h₄ => ?_)
  have hlink₄ := hkeep _ .magic heapMagic hlink₃
  refine h₄.get_bind hca.put.put.put.put hlink₄ (h₄.set_bind hcc.put.put.put.put fun vm₅ h₅ => ?_)
  have hlink₅ := hkeep _ .prev a hlink₄
  refine h₅.get_bind hca.put.put.put.put.put hlink₅
    (h₅.set_bind hcc.put.put.put.put.put fun vm₆ h₆ => ?_)
  have hlink₆ := hkeep _ .next next hlink₅
  refine h₆.get_bind hca.put.put.put.put.put.put hlink₆
    (h₆.set_bind hcc.put.put.put.put.put.put fun vm₇ h₇ => ?_)
  have hlink₇ := hkeep _ .size (n - req) hlink₆
  refine h₇.get_bind hca.put.put.put.put.put.put.put hlink₇ ?_
  refine h₇.get_bind (x := next) hcc.put.put.put.put.put.put.put ?_ ?_
  · rw [fetch_put_of_ne (by decide), fetch_put_same hhi]
  rw [if_pos hlo.ne']
  exact h₇.set hc'.put.put.put.put.put.put.put .prev (a + req)

theorem crop_small {vm₀ vm : Vm} {grow : Bool} (hs : ShowsFrom grow h.pml4 vm₀ vm v)
    (hsize : fetch v a .size = some n) (hreq : req ≤ n) (hn : n ≤ req + headerSize)
    (hc : Covers v a (a + headerSize)) (hlt : n < 2 ^ 64) :
    Yields (crop a req { h with vm }) (· = { h with vm }) := by
  have hexcess : (n + 2 ^ 64 - req) % 2 ^ 64 = n - req := by omega
  unfold crop
  refine hs.get_bind hc hsize ?_
  rw [hexcess, if_pos (by omega)]
  exact .pure rfl

theorem Repr.split (hr : Repr h v (xs ++ blk :: ys)) :
    Seg v 0 kheapStart xs (kheapStart + total xs) ∧
      Header v (kheapStart + total xs) (lastAddr 0 kheapStart xs)
        (first (kheapStart + total xs + blk.size) 0 ys) blk ∧
      headerSize ≤ blk.size ∧
      Seg v (kheapStart + total xs) (kheapStart + total xs + blk.size) ys 0 := by
  obtain ⟨hxs, hh, hb, hys⟩ := Seg.append.mp hr.seg
  exact ⟨hxs, hh, hb, hys⟩

/-- `kmalloc` with a free block that fits: the block becomes used, and a rest that is large enough
becomes a free block of its own. -/
theorem reuse_spec (hr : Repr h v (xs ++ blk :: ys)) (hys : ys ≠ [])
    (hreq : size + headerSize ≤ blk.size) :
    Yields (h.reuse (kheapStart + total xs) size line function) fun r =>
      r.1 = kheapStart + total xs + headerSize ∧ r.2.calls = h.calls ∧
      Apart true h r.2 ∧ ∃ v' mid, Repr r.2 v' (xs ++ mid ++ ys) ∧
        (mid = [⟨blk.size, false⟩] ∨ ∃ m, mid = [⟨size + headerSize, false⟩, ⟨m, true⟩] ∧
          blk.size = size + headerSize + m) ∧
        (∀ p, p < kheapStart + total xs ∨ kheapStart + total xs + blk.size + headerSize ≤ p →
          v' p = v p) ∧
        ∀ p, r.1 ≤ p → p < r.1 + size → v' p = some 0 := by
  obtain ⟨hxs, hh, hb, hyseg⟩ := hr.split
  have hcov := hr.covers
  have hlim := hr.limit
  rw [hr.brk] at hlim
  simp only [total_append, total_cons] at hcov hlim
  obtain ⟨y, ys', rfl⟩ := List.exists_cons_of_ne_nil hys
  have hy := hyseg.2.1
  simp only [total_cons, first] at hcov hlim hh
  set a := kheapStart + total xs with ha
  have hca : Covers v a (a + headerSize) := hcov.mono (by omega) (by omega)
  have hcblk : Covers v a (a + blk.size) := hcov.mono (by omega) (by omega)
  have hcy : Covers v (a + blk.size) (a + blk.size + headerSize) := hcov.mono (by omega) (by omega)
  have hcpay : Covers v (a + headerSize) (a + headerSize + size) := hcov.mono (by omega) (by omega)
  have h64 : kheapEnd + 1 < 2 ^ 64 := by decide
  have hmod : (headerSize + size) % 2 ^ 64 = size + headerSize := by
    rw [Nat.add_comm]
    exact Nat.mod_eq_of_lt (by omega)
  unfold reuse
  rw [hmod]
  refine (hr.shows.start true).set_bind hca fun vm₁ h₁ => ?_
  refine h₁.set_bind hca.put fun vm₂ h₂ => ?_
  refine h₂.set_bind hca.put.put fun vm₃ h₃ => ?_
  set w := put (put (put v a .available 0) a .function function) a .line line with hw
  have hwout : ∀ p, p < a ∨ a + headerSize ≤ p → w p = v p := by
    intro p hp
    rw [hw, put_apply_of_notMem hp, put_apply_of_notMem hp, put_apply_of_notMem hp]
  have hwcov : ∀ lo hi, Covers v lo hi → Covers w lo hi := fun _ _ hc => hc.put.put.put
  have hwexact : Exact w h.kheapBreak := ((hr.exact.put hca).put hca.put).put hca.put.put
  have hwav : fetch w a .available = some 0 := by
    rw [hw, fetch_put_of_ne (by decide), fetch_put_of_ne (by decide), fetch_put_same (by decide)]
  have hwh : ∀ f, f ≠ .available → f ≠ .function → f ≠ .line → fetch w a f = fetch v a f := by
    intro f h₁ h₂ h₃
    rw [hw, fetch_put_of_ne h₃, fetch_put_of_ne h₂, fetch_put_of_ne h₁]
  have hwsize : fetch w a .size = some blk.size :=
    (hwh _ (by decide) (by decide) (by decide)).trans hh.size
  have hwnext : fetch w a .next = some (a + blk.size) :=
    (hwh _ (by decide) (by decide) (by decide)).trans hh.next
  rcases Nat.lt_or_ge (size + headerSize + headerSize) blk.size with hlt | hge
  · refine (crop_spec h₃ hwsize hwnext (by omega) hlt (hwcov _ _ hcblk) (hwcov _ _ hcy) (by omega)
      (by omega) le_rfl).bind ?_
    rintro _ ⟨vm₄, rfl, h₄⟩
    obtain ⟨m, hm⟩ : ∃ m, blk.size = size + headerSize + m := ⟨_, (Nat.add_sub_cancel' hreq).symm⟩
    have hcC : Covers v (a + (size + headerSize)) (a + (size + headerSize) + headerSize) :=
      hcblk.mono (by omega) (by omega)
    have huexact := hwexact.cropped (size + headerSize) (blk.size - (size + headerSize))
      (hwcov _ _ hca) (hwcov _ _ hcC) (hwcov _ _ hcy)
    refine h₄.memset_bind (hwcov _ _ hcpay).cropped fun vm₅ h₅ => .pure ?_
    have hvout : ∀ p, p < a ∨ a + blk.size + headerSize ≤ p →
        write (cropped w a (a + (size + headerSize)) (a + blk.size) (size + headerSize)
          (blk.size - (size + headerSize))) (a + headerSize) size 0 p = v p := by
      intro p hp
      rw [write_apply_of_notMem (by omega), cropped_apply (by omega) (by omega) (by omega),
        hwout p (by omega)]
    refine ⟨rfl, rfl, ⟨rfl, h₅.beside⟩, _, [⟨size + headerSize, false⟩, ⟨m, true⟩], ?_,
      Or.inr ⟨m, rfl, hm⟩, hvout, fun p hlo hhi => ?_⟩
    · have hhw : Header w a (lastAddr 0 kheapStart xs) (a + blk.size) ⟨blk.size, false⟩ :=
        ⟨hwav, (hwh _ (by decide) (by decide) (by decide)).trans hh.magic,
          (hwh _ (by decide) (by decide) (by decide)).trans hh.prev, hwnext, hwsize⟩
      have hmid := cropped_seg hhw (c := a + (size + headerSize)) (by omega) (by omega) (by omega)
      have htail := cropped_tail (size + headerSize) (blk.size - (size + headerSize))
        (hyseg.congr_outside fun p hp _ => hwout p (by omega))
        (c := a + (size + headerSize)) (by omega) (by omega) (by omega)
      rw [show a + (size + headerSize) - a = size + headerSize by omega,
        show a + blk.size - (a + (size + headerSize)) = blk.size - (size + headerSize) by omega]
        at hmid
      refine Repr.splice_inner (by simpa using hr : Repr h v (xs ++ [blk] ++ y :: ys')) h₅.shows
        (huexact.write (hwcov _ _ hcpay).cropped) (by simp [hm]) (by simp) (by simp) hys
        (hxs.congr_outside fun p _ hp => hvout p (by omega)) ?_ ?_
      · rw [show blk.size - (size + headerSize) = m by omega] at hmid ⊢
        refine Seg.congr (v := cropped w a (a + (size + headerSize)) (a + blk.size)
          (size + headerSize) m) (by simpa using hmid) fun k hk p hlo hhi => ?_
        simp only [placed, List.mem_cons, List.not_mem_nil, or_false] at hk
        rcases hk with rfl | rfl <;> exact write_apply_of_notMem (by dsimp only at hlo hhi; omega)
      · refine Seg.congr_outside (v := cropped w a (a + (size + headerSize)) (a + blk.size)
          (size + headerSize) (blk.size - (size + headerSize))) (by simpa [lastAddr] using htail) ?_
        intro p hlo _
        simp only [total_cons, total_nil] at hlo
        exact write_apply_of_notMem (by omega)
    · rw [write_apply_of_mem hlo hhi, Nat.zero_div]
      rfl
  · refine (crop_small h₃ hwsize hreq hge (hwcov _ _ hca) (by omega)).bind ?_
    rintro _ rfl
    refine h₃.memset_bind (hwcov _ _ hcpay) fun vm₄ h₄ => .pure ?_
    have hcov₄ := hwcov _ _ hcpay
    have hvout : ∀ p, p < a ∨ a + headerSize + size ≤ p →
        write w (a + headerSize) size 0 p = v p := by
      intro p hp
      rw [write_apply_of_notMem (by omega), hwout p (by omega)]
    refine ⟨rfl, rfl, ⟨rfl, h₄.beside⟩, _, [⟨blk.size, false⟩], ?_, Or.inl rfl,
      fun p hp => hvout p (by omega), fun p hlo hhi => ?_⟩
    · refine Repr.splice_inner (by simpa using hr : Repr h v (xs ++ [blk] ++ y :: ys')) h₄.shows
        (hwexact.write hcov₄) (by simp) (by simp) (by simp) hys
        (hxs.congr_outside fun p _ hp => hvout p (by omega)) ?_ ?_
      · refine ⟨⟨?_, ?_, ?_, ?_, ?_⟩, hb, trivial⟩ <;> rw [fetch_write_of_disjoint (by omega)]
        · exact hwav
        · exact (hwh _ (by decide) (by decide) (by decide)).trans hh.magic
        · exact (hwh _ (by decide) (by decide) (by decide)).trans hh.prev
        · exact hwnext
        · exact hwsize
      · simp only [total_cons, total_nil, Nat.add_zero]
        exact hyseg.congr_outside fun p hp _ => hvout p (by omega)
    · rw [write_apply_of_mem hlo hhi, Nat.zero_div]
      rfl

/-- The header that `kmalloc` writes at the end of the heap. -/
def headed (v : View) (e last size line function : ℕ) : View :=
  let v := put (put (put v e .available 0) e .magic heapMagic) e .next 0
  let v := put (put v e .prev last) e .size size
  put (put v e .function function) e .line line

theorem headed_apply {e last : ℕ} (hp : p < e ∨ e + headerSize ≤ p) :
    headed v e last size line function p = v p := by
  simp only [headed, put_apply_of_notMem hp]

theorem Covers.headed {e last lo hi : ℕ} (hc : Covers v lo hi) :
    Covers (headed v e last size line function) lo hi := hc.put.put.put.put.put.put.put

theorem Exact.headed {e last brk : ℕ} (he : Exact v brk) (hc : Covers v e (e + headerSize)) :
    Exact (headed v e last size line function) brk :=
  he.congr hc hc.headed fun _ => headed_apply

theorem headed_header {e last : ℕ} (hl : last < 2 ^ 64) (hn : n < 2 ^ 64) :
    Header (headed v e last n line function) e last 0 ⟨n, false⟩ := by
  unfold headed
  constructor <;> simp (disch := first | decide | (simp only [Field.length]; omega)) only
    [fetch_put_same, fetch_put_of_ne, Bool.toNat_false]

theorem lastAddr_le (hs : Seg v prev a bs n) (hne : bs ≠ []) :
    lastAddr prev a bs + headerSize ≤ a + total bs := by
  induction bs generalizing prev a with
  | nil => exact absurd rfl hne
  | cons b bs ih =>
    obtain ⟨-, hb, hs⟩ := hs
    rw [lastAddr, total_cons]
    rcases eq_or_ne bs [] with rfl | hbs
    · simp only [lastAddr, total_nil]
      omega
    · have := ih hs hbs
      omega

/-- A block at the end, once the break has been moved. -/
theorem append_spec {e : ℕ} {vm₀ : Vm} (he : e = kheapStart + total bs)
    (hs : ShowsFrom true h.pml4 vm₀ h.vm v)
    (hex : Exact v h.kheapBreak) (hbrk : h.kheapBreak = e + (size + headerSize))
    (hlim : h.kheapBreak ≤ kheapEnd + 1) (hseg : Seg v 0 kheapStart bs 0)
    (hstart : h.heapStart = first kheapStart 0 bs)
    (hlast : h.heapLast = lastAddr 0 kheapStart bs) :
    Yields (h.append e size line function) fun r =>
      r.1 = e + headerSize ∧ r.2.calls = h.calls ∧ r.2.pml4 = h.pml4 ∧
      Beside true heapPages h.pml4 vm₀ r.2.vm ∧
        ∃ v', Repr r.2 v' (bs ++ [⟨size + headerSize, false⟩]) ∧
        (∀ p < e, bs ≠ [] → p < h.heapLast ∨ h.heapLast + headerSize ≤ p → v' p = v p) ∧
        ∀ p, r.1 ≤ p → p < r.1 + size → v' p = some 0 := by
  have h64 : kheapEnd + 1 < 2 ^ 64 := by decide
  have hcov : Covers v kheapStart (e + (size + headerSize)) := hbrk ▸ hex.covers
  have hce : Covers v e (e + headerSize) := hcov.mono (by omega) (by omega)
  have hmod : (headerSize + size) % 2 ^ 64 = size + headerSize := by
    rw [Nat.add_comm]
    exact Nat.mod_eq_of_lt (by omega)
  have hlast64 : h.heapLast < 2 ^ 64 := by
    rcases eq_or_ne bs [] with rfl | hne
    · simp [hlast, lastAddr]
    · have := lastAddr_le hseg hne
      omega
  unfold append
  rw [hmod]
  refine hs.set_bind hce fun vm₁ h₁ => h₁.set_bind hce.put fun vm₂ h₂ => ?_
  refine h₂.set_bind hce.put.put fun vm₃ h₃ => h₃.set_bind hce.put.put.put fun vm₄ h₄ => ?_
  refine h₄.set_bind hce.put.put.put.put fun vm₅ h₅ => ?_
  refine h₅.set_bind hce.put.put.put.put.put fun vm₆ h₆ => ?_
  refine h₆.set_bind hce.put.put.put.put.put.put fun vm₇ h₇ => ?_
  set w := headed v e h.heapLast (size + headerSize) line function with hw
  replace h₇ : ShowsFrom true h.pml4 vm₀ vm₇ w := h₇
  have hwex : Exact w h.kheapBreak := hex.headed hce
  have hwcov : Covers w kheapStart (e + (size + headerSize)) := hcov.headed
  have hcpay : Covers w (e + headerSize) (e + headerSize + size) := hwcov.mono (by omega) (by omega)
  have hhead : Header w e h.heapLast 0 ⟨size + headerSize, false⟩ :=
    headed_header hlast64 (by omega)
  rcases eq_or_ne bs [] with rfl | hne
  · obtain rfl : e = kheapStart := by simpa using he
    have hl : h.heapLast = 0 := hlast
    have hst : h.heapStart = 0 := hstart
    dsimp only
    rw [if_neg (not_not.mpr hl)]
    refine .bind_some rfl ?_
    rw [if_pos hst]
    refine ShowsFrom.memset_bind (h := { h with heapLast := kheapStart, heapStart := kheapStart })
      h₇ hcpay fun vm₈ h₈ => .pure ?_
    refine ⟨rfl, rfl, rfl, h₈.beside, _, ⟨h₈.shows, hwex.write hcpay, ⟨?_, by simp, trivial⟩,
      by simpa using hbrk, hlim, rfl, rfl⟩, fun p _ hne => absurd rfl hne, fun p hlo hhi => ?_⟩
    · rw [hl] at hhead
      refine hhead.congr fun p _ hp => ?_
      rw [write_apply_of_notMem (by omega)]
    · rw [write_apply_of_mem hlo hhi, Nat.zero_div]
      rfl
  · have hlb := lastAddr_le hseg hne
    have hla : kheapStart ≤ lastAddr 0 kheapStart bs := le_lastAddr hne
    rw [← hlast] at hlb hla
    have hpos : 0 < kheapStart := by decide
    have hstart' : h.heapStart ≠ 0 := by
      cases bs with
      | nil => exact absurd rfl hne
      | cons => exact hstart ▸ hpos.ne'
    have hcl : Covers w h.heapLast (h.heapLast + headerSize) := hwcov.mono (by omega) (by omega)
    dsimp only
    rw [if_pos (show h.heapLast ≠ 0 by omega)]
    refine h₇.set_bind hcl fun vm₈ h₈ => ?_
    rw [if_neg hstart']
    refine ShowsFrom.memset_bind (h := { h with heapLast := e }) h₈ hcpay.put
      fun vm₉ h₉ => .pure ?_
    have hout : ∀ p, p < e → p < h.heapLast ∨ h.heapLast + headerSize ≤ p →
        write (put w h.heapLast .next e) (e + headerSize) size 0 p = v p := by
      intro p hp hp'
      rw [write_apply_of_notMem (by omega), put_apply_of_notMem hp', hw, headed_apply (by omega)]
    refine ⟨rfl, rfl, rfl, h₉.beside, _, ⟨h₉.shows, (hwex.put hcl).write hcpay.put, ?_,
      by simpa [he, Nat.add_assoc] using hbrk, hlim, ?_, ?_⟩, fun p hp _ => hout p hp,
      fun p hlo hhi => ?_⟩
    · rw [Seg.append, ← he, ← hlast]
      constructor
      · have hbs : Seg (put w (lastAddr 0 kheapStart bs) .next e) 0 kheapStart bs e :=
          Seg.put_next (hseg.congr_outside fun p _ hp => headed_apply (by omega)) (by omega) hne
        rw [← hlast] at hbs
        exact hbs.congr_outside fun p _ hp => write_apply_of_notMem (by omega)
      · refine ⟨hhead.congr fun p hlo hhi => ?_, by simp, trivial⟩
        rw [write_apply_of_notMem (by omega), put_apply_of_notMem (by omega)]
    · change h.heapStart = _
      rw [hstart]
      cases bs with
      | nil => exact absurd rfl hne
      | cons => rfl
    · rw [lastAddr_append, ← he]
      rfl
    · rw [write_apply_of_mem hlo hhi, Nat.zero_div]
      rfl

/-- No two neighbours are free, and the last block is used. -/
structure Quiet (bs : List Block) : Prop where
  chain : bs.IsChain fun b c => b.available = true → c.available = false
  tail : ∀ b ∈ bs.getLast?, b.available = false

/-- The number of used blocks. -/
def used (bs : List Block) : ℕ := bs.countP fun b => !b.available

/-- The payload of the used blocks. -/
def InPayload (bs : List Block) (p : ℕ) : Prop :=
  ∃ k ∈ placed kheapStart bs, k.2.available = false ∧ k.1 + headerSize ≤ p ∧ p < k.1 + k.2.size

/-- A used block at `a` with room for `size` bytes has taken the place of free memory. -/
structure Allocated (bs bs' : List Block) (a size : ℕ) : Prop where
  fresh : ∃ n, (a, ⟨n, false⟩) ∈ placed kheapStart bs' ∧ size + headerSize ≤ n
  keeps : ∀ k ∈ placed kheapStart bs, k.2.available = false → k ∈ placed kheapStart bs' ∧ k.1 ≠ a

theorem mem_placed_split {k : ℕ × Block} : k ∈ placed a (xs ++ blk :: ys) ↔
    k ∈ placed a xs ∨ k = (a + total xs, blk) ∨ k ∈ placed (a + total xs + blk.size) ys := by
  simp [placed_append, placed]

theorem length_le_total (hs : Seg v prev a bs n) : bs.length ≤ total bs := by
  induction bs generalizing prev a with
  | nil => simp
  | cons b bs ih =>
    obtain ⟨-, hb, hs⟩ := hs
    have := ih hs
    have : headerSize = 41 := rfl
    simp only [List.length_cons, total_cons]
    omega

theorem le_lastAddr_of_placed (hs : Seg v prev a bs n) {k : ℕ × Block} (hk : k ∈ placed a bs) :
    k.1 = lastAddr prev a bs ∨ k.1 + k.2.size ≤ lastAddr prev a bs := by
  induction bs generalizing prev a with
  | nil => cases hk
  | cons b bs ih =>
    obtain ⟨-, hb, hs⟩ := hs
    rw [lastAddr]
    rcases List.mem_cons.mp hk with rfl | hk
    · rcases eq_or_ne bs [] with rfl | hne
      · exact Or.inl rfl
      · exact Or.inr (le_lastAddr hne)
    · exact ih hs hk

theorem allocated_reuse {mid : List Block} (hr : Repr h v (xs ++ blk :: ys))
    (hav : blk.available = true) (hreq : size + headerSize ≤ blk.size)
    (hmid : mid = [⟨blk.size, false⟩] ∨ ∃ m, mid = [⟨size + headerSize, false⟩, ⟨m, true⟩] ∧
      blk.size = size + headerSize + m) :
    Allocated (xs ++ blk :: ys) (xs ++ mid ++ ys) (kheapStart + total xs) size := by
  have htotal : total mid = blk.size := by
    rcases hmid with rfl | ⟨m, rfl, hm⟩
    · simp
    · simp [hm]
  have hplaced : placed kheapStart (xs ++ mid ++ ys) = placed kheapStart xs ++
      placed (kheapStart + total xs) mid ++ placed (kheapStart + total xs + blk.size) ys := by
    rw [placed_append, placed_append, total_append, htotal, Nat.add_assoc]
  constructor
  · rw [hplaced]
    rcases hmid with rfl | ⟨m, rfl, hm⟩
    · exact ⟨blk.size, by simp [placed], hreq⟩
    · exact ⟨size + headerSize, by simp [placed], le_rfl⟩
  · intro k hk hused
    have hsize := hr.seg.size_le hk
    have hpos : 0 < headerSize := by decide
    rw [hplaced, List.mem_append, List.mem_append]
    rcases mem_placed_split.mp hk with hk | rfl | hk
    · have := placed_bounds hk
      exact ⟨Or.inl (Or.inl hk), by omega⟩
    · rw [hav] at hused
      cases hused
    · have := placed_bounds hk
      exact ⟨Or.inr hk, by omega⟩

theorem Quiet.ne_nil (hq : Quiet (xs ++ blk :: ys)) (hav : blk.available = true) : ys ≠ [] := by
  rintro rfl
  have := hq.tail blk (by simp)
  rw [hav] at this
  cases this

theorem quiet_reuse {mid : List Block} (hq : Quiet (xs ++ blk :: ys)) (hav : blk.available = true)
    (hmid : (∃ m, mid = [⟨m, false⟩]) ∨ ∃ m m', mid = [⟨m, false⟩, ⟨m', true⟩]) :
    Quiet (xs ++ mid ++ ys) := by
  obtain ⟨y, ys, rfl⟩ := List.exists_cons_of_ne_nil (hq.ne_nil hav)
  obtain ⟨hchain, htail⟩ := hq
  rw [List.isChain_append] at hchain
  obtain ⟨hx, hb, -⟩ := hchain
  rw [List.isChain_cons_cons] at hb
  have hy := hb.1 hav
  refine ⟨?_, fun b hb => htail b (by simpa using hb)⟩
  rcases hmid with ⟨m, rfl⟩ | ⟨m, m', rfl⟩
  · simp [List.isChain_append, List.isChain_cons_cons, hx, hb.2]
  · simp [List.isChain_append, List.isChain_cons_cons, hx, hb.2, hy]

/-- What a successful `kmalloc` has done. -/
structure Served (h : Heap) (v : View) (bs : List Block) (size : ℕ) (r : ℕ × Heap) (v' : View)
    (bs' : List Block) : Prop where
  repr : Repr r.2 v' bs'
  quiet : Quiet bs'
  used : used bs' = used bs + 1
  allocated : ∃ a, r.1 = a + headerSize ∧ Allocated bs bs' a size
  zero : ∀ p, r.1 ≤ p → p < r.1 + size → v' p = some 0
  frame : ∀ p, InPayload bs p → v' p = v p
  calls : ∀ c ∈ r.2.calls, c ∈ h.calls ∨ c.Proper

theorem served_reuse (hr : Repr h v (xs ++ blk :: ys)) (hq : Quiet (xs ++ blk :: ys))
    (hav : blk.available = true) (hreq : size + headerSize ≤ blk.size) :
    Yields (h.reuse (kheapStart + total xs) size line function) fun r =>
      Apart true h r.2 ∧ ∃ v' bs', Served h v (xs ++ blk :: ys) size r v' bs' := by
  refine (reuse_spec hr (hq.ne_nil hav) hreq).mono ?_
  rintro ⟨ptr, h'⟩ ⟨hptr, hcalls, hb, v', mid, hr', hmid, hframe, hzero⟩
  refine ⟨hb, v', _, hr', ?_, ?_, ⟨_, hptr, allocated_reuse hr hav hreq hmid⟩, hzero, ?_, ?_⟩
  · rcases hmid with rfl | ⟨m, rfl, -⟩
    · exact quiet_reuse hq hav (Or.inl ⟨_, rfl⟩)
    · exact quiet_reuse hq hav (Or.inr ⟨_, m, rfl⟩)
  · rcases hmid with rfl | ⟨m, rfl, -⟩ <;> simp [used, hav] <;> omega
  · rintro p ⟨k, hk, hused, hlo, hhi⟩
    rcases mem_placed_split.mp hk with hk | rfl | hk
    · have := placed_bounds hk
      exact hframe p (Or.inl (by omega))
    · rw [hav] at hused
      cases hused
    · have := placed_bounds hk
      exact hframe p (Or.inr (by omega))
  · intro c hc
    exact Or.inl (hcalls ▸ hc)

theorem quiet_append (hq : Quiet bs) : Quiet (bs ++ [⟨n, false⟩]) := by
  refine ⟨?_, by simp⟩
  rw [List.isChain_append]
  exact ⟨hq.chain, by simp, by simp⟩

/-- `kmalloc` without a free block that fits. -/
theorem served_extend (hr : Repr h v bs) (hq : Quiet bs)
    (hlim : h.kheapBreak + (size + headerSize) ≤ kheapEnd + 1) :
    (∀ r, h.extend size line function = some r →
      Apart true h r.2 ∧ ∃ v' bs', Served h v bs size r v' bs') ∧
    (4 * ((size + headerSize) / 4096 + 1) ≤ h.vm.pageMap.freeFrames →
      ∃ r, h.extend size line function = some r) := by
  have hsize : 0 < size + headerSize := Nat.add_pos_right size (by decide)
  have h64 : kheapEnd + 1 < 2 ^ 64 := by decide
  have hmod : (size + headerSize) % 2 ^ 64 = size + headerSize := Nat.mod_eq_of_lt (by omega)
  have hlo : kheapStart ≤ h.kheapBreak := by
    rw [hr.brk]
    exact Nat.le_add_right _ _
  obtain ⟨hsound, htotal⟩ := kbrk_grow hr.shows hr.exact hlo hsize hlim
  -- once the break has moved, nothing can go wrong
  have hrest : ∀ o h₁, h.kbrk (size + headerSize) = some (o, h₁) →
      o = h.kheapBreak ∧ Yields (h₁.append o size line function) fun r =>
        Apart true h r.2 ∧ ∃ v' bs', Served h v bs size r v' bs' := by
    intro o h₁ hk
    obtain ⟨rfl, ⟨calls, he, hcalls⟩, hb, v₁, hs₁, hex₁, hkeep⟩ := hsound o h₁ hk
    refine ⟨rfl, ?_⟩
    have hcov := hr.covers
    have hpml4 : h₁.pml4 = h.pml4 := by rw [he]
    have hbrk₁ : h₁.kheapBreak = h.kheapBreak + (size + headerSize) := by rw [he]
    have hstart₁ : h₁.heapStart = h.heapStart := by rw [he]
    have hlast₁ : h₁.heapLast = h.heapLast := by rw [he]
    have hcalls₁ : h₁.calls = h.calls ++ calls := by rw [he]
    have hseg₁ : Seg v₁ 0 kheapStart bs 0 :=
      hr.seg.congr_outside fun p hp hp' => hkeep p (hcov p hp hp')
    have hfrom : ShowsFrom true h₁.pml4 h.vm h₁.vm v₁ := hpml4 ▸ ⟨hs₁, hb⟩
    refine (append_spec (h := h₁) (v := v₁) hr.brk hfrom (hbrk₁ ▸ hex₁) hbrk₁
      (hbrk₁ ▸ hlim) hseg₁ (hstart₁.trans hr.start) (hlast₁.trans hr.last)).mono ?_
    rintro ⟨ptr, h'⟩ ⟨hptr, hcalls', hpml4', hb', v', hr', hframe, hzero⟩
    refine ⟨⟨hpml4'.trans hpml4, hpml4 ▸ hb'⟩, v', _, hr', quiet_append hq, by simp [used],
      ⟨h.kheapBreak, hptr, ⟨?_, ?_⟩⟩, hzero, ?_, ?_⟩
    · exact ⟨size + headerSize, by simp [placed_append, placed, hr.brk], le_rfl⟩
    · intro k hk hused
      have hb := placed_bounds hk
      have := hr.seg.size_le hk
      have hpos : 0 < headerSize := by decide
      rw [placed_append, hr.brk]
      exact ⟨List.mem_append_left _ hk, by omega⟩
    · rintro p ⟨k, hk, hused, hlo', hhi'⟩
      have hb := placed_bounds hk
      have hne : bs ≠ [] := by
        rintro rfl
        cases hk
      have hlastk := le_lastAddr_of_placed hr.seg hk
      rw [← hr.last, ← hlast₁] at hlastk
      rw [hframe p (by rw [hr.brk]; omega) hne (by omega), hkeep p (hcov p (by omega) (by omega))]
    · intro c hc
      rw [hcalls', hcalls₁] at hc
      exact (List.mem_append.mp hc).imp_right (hcalls c)
  have hne : h.kheapBreak ≠ 2 ^ 64 - 1 := by
    have hodd : (2 : ℕ) ^ 64 - 1 = 18446744073709551615 := by decide
    have : kheapEnd + 1 < 18446744073709551615 := by decide
    omega
  constructor
  · intro r hr'
    rw [extend, hmod] at hr'
    obtain ⟨⟨o, h₁⟩, hk, hr'⟩ := Option.bind_eq_some_iff.mp hr'
    obtain ⟨rfl, hy⟩ := hrest o h₁ hk
    dsimp only at hr'
    rw [if_neg hne] at hr'
    exact hy.of_eq_some hr'
  · intro hle
    obtain ⟨h₁, hk⟩ := htotal hle
    obtain ⟨-, r, hr', -⟩ := hrest _ h₁ hk
    refine ⟨r, ?_⟩
    rw [extend, hmod, hk]
    exact (if_neg hne).trans hr'

/-- If `kmalloc` has to move the break, the break stays in the heap region. -/
def Room (h : Heap) (size : ℕ) : Prop :=
  h.findFit ((headerSize + size) % 2 ^ 64) h.fuel h.heapStart = some none →
    h.kheapBreak + (size + headerSize) ≤ kheapEnd + 1

instance (h : Heap) (size : ℕ) : Decidable (h.Room size) := inferInstanceAs (Decidable (_ → _))

/-- `kmalloc` hands out a cleared block of its own; it can only run out of frames. -/
theorem kmalloc_spec (hr : Repr h v bs) (hq : Quiet bs) (hsize : size + headerSize < 2 ^ 64)
    (hroom : h.Room size) :
    (∀ r, h.kmalloc size line function = some r →
      Apart true h r.2 ∧ ∃ v' bs', Served h v bs size r v' bs') ∧
    (4 * ((size + headerSize) / 4096 + 1) ≤ h.vm.pageMap.freeFrames →
      ∃ r, h.kmalloc size line function = some r) := by
  have hmod : (headerSize + size) % 2 ^ 64 = size + headerSize := by
    rw [Nat.add_comm]
    exact Nat.mod_eq_of_lt hsize
  have hfuel : bs.length < h.fuel := by
    have := length_le_total hr.seg
    have := hr.brk
    unfold fuel
    omega
  rw [Room, hmod, hr.start] at hroom
  rw [kmalloc, hmod, hr.start]
  rcases findFit_spec (size + headerSize) hr.shows hr.seg hr.covers (by decide) hfuel with
    hnone | ⟨xs, blk, ys, rfl, hav, hreq, hsome⟩
  · rw [hnone]
    exact served_extend hr hq (hroom hnone)
  · rw [hsome]
    have hy : Yields (h.reuse (kheapStart + total xs) size line function) _ :=
      served_reuse hr hq hav hreq
    exact ⟨fun r hr' => hy.of_eq_some hr', fun _ => hy.imp fun r hr' => hr'.1⟩

end Heap

end Koerix
