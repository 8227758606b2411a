import Koerix.Heap.Alloc

/-! # Freeing

`kfree` marks the block free, merges it with the free blocks on both sides, and
if the result is the last block gives it back by moving the break. Only headers
are written, so the payload of all other blocks stays as it is.
-/

namespace Koerix

open ByteMemory

namespace Heap

variable {h h' : Heap} {v v' : View} {a n p prev : ℕ} {blk b₁ b₂ : Block}
    {bs bs' xs ys : List Block}

/-- The address is not in the header of a block. -/
def OffHeaders (bs : List Block) (p : ℕ) : Prop :=
  ∀ k ∈ placed kheapStart bs, p < k.1 ∨ k.1 + headerSize ≤ p

theorem offHeaders_split : OffHeaders (xs ++ blk :: ys) p ↔
    (∀ k ∈ placed kheapStart xs, p < k.1 ∨ k.1 + headerSize ≤ p) ∧
    (p < kheapStart + total xs ∨ kheapStart + total xs + headerSize ≤ p) ∧
    ∀ k ∈ placed (kheapStart + total xs + blk.size) ys, p < k.1 ∨ k.1 + headerSize ≤ p := by
  simp only [OffHeaders, mem_placed_split, or_imp, forall_and, forall_eq]

/-- The heap has become `bs'` by writing headers of `bs`, below the break. -/
structure Rewritten (h : Heap) (v : View) (bs : List Block) (h' : Heap) (v' : View)
    (bs' : List Block) : Prop where
  repr : Repr h' v' bs'
  frame : ∀ p < h'.kheapBreak, OffHeaders bs p → v' p = v p
  off : ∀ p, OffHeaders bs p → OffHeaders bs' p
  brk : h'.kheapBreak ≤ h.kheapBreak
  calls : ∀ c ∈ h'.calls, c ∈ h.calls ∨ c.Proper

theorem Rewritten.refl (hr : Repr h v bs) : Rewritten h v bs h v bs :=
  ⟨hr, fun _ _ _ => rfl, fun _ => id, le_rfl, fun _ => Or.inl⟩

theorem Rewritten.trans {h'' : Heap} {v'' : View} {bs'' : List Block}
    (h₁ : Rewritten h v bs h' v' bs') (h₂ : Rewritten h' v' bs' h'' v'' bs'') :
    Rewritten h v bs h'' v'' bs'' where
  repr := h₂.repr
  frame p hp ho := by
    rw [h₂.frame p hp (h₁.off p ho), h₁.frame p (lt_of_lt_of_le hp h₂.brk) ho]
  off p ho := h₂.off p (h₁.off p ho)
  brk := h₂.brk.trans h₁.brk
  calls c hc := by
    rcases h₂.calls c hc with hc | hc
    · exact h₁.calls c hc
    · exact Or.inr hc

/-- The memory after the block at `next`, if there is one, has been linked to `a`. -/
def linked (v : View) (next a : ℕ) : View := if next ≠ 0 then put v next .prev a else v

/-- The memory after merging the block at `c` into the one at `a`. -/
def merged (v : View) (a c next size : ℕ) : View :=
  put (linked (put (put v a .size size) a .next next) next a) c .magic 0

section Merged

variable {c e next size : ℕ}

theorem linked_apply (hn : next ≠ 0 → p < next ∨ next + headerSize ≤ p) :
    linked v next a p = v p := by
  unfold linked
  split_ifs with h0
  · exact put_apply_of_notMem (hn h0)
  · rfl

theorem fetch_linked {f : Field} (hn : next ≠ 0 → c + headerSize ≤ next) :
    fetch (linked v next a) c f = fetch v c f :=
  fetch_congr fun _ _ hp => linked_apply fun h0 => Or.inl (lt_of_lt_of_le hp (hn h0))

theorem Covers.linked {lo hi : ℕ} (hv : Covers v lo hi) : Covers (linked v next a) lo hi := by
  unfold Heap.linked
  split_ifs
  · exact hv.put
  · exact hv

theorem Exact.linked {brk : ℕ} (he : Exact v brk)
    (hc : next ≠ 0 → Covers v next (next + headerSize)) : Exact (linked v next a) brk := by
  unfold Heap.linked
  split_ifs with h0
  · exact he.put (hc h0)
  · exact he

theorem merged_apply (ha : p < a ∨ a + headerSize ≤ p) (hc : p < c ∨ c + headerSize ≤ p)
    (hn : next ≠ 0 → p < next ∨ next + headerSize ≤ p) : merged v a c next size p = v p := by
  rw [merged, put_apply_of_notMem hc, linked_apply hn, put_apply_of_notMem ha,
    put_apply_of_notMem ha]

theorem Exact.merged {brk : ℕ} (he : Exact v brk) (ha : Covers v a (a + headerSize))
    (hc : Covers v c (c + headerSize)) (hn : next ≠ 0 → Covers v next (next + headerSize)) :
    Exact (merged v a c next size) brk :=
  (((he.put ha).put ha.put).linked fun h0 => (hn h0).put.put).put hc.put.put.linked

theorem merged_header {b : Block} (hh : Header v a prev c b) (hc : a + headerSize ≤ c)
    (hn : next ≠ 0 → c + headerSize ≤ next) (hnext : next < 2 ^ 64) (hsize : size < 2 ^ 64) :
    Header (merged v a c next size) a prev next ⟨size, b.available⟩ := by
  have hkeep : ∀ f, fetch (merged v a c next size) a f =
      fetch (put (put v a .size size) a .next next) a f := fun f => by
    rw [merged, fetch_put_of_disjoint (by omega), fetch_linked fun h0 => by have := hn h0; omega]
  constructor <;> rw [hkeep]
  · rw [fetch_put_of_ne (by decide), fetch_put_of_ne (by decide), hh.available]
  · rw [fetch_put_of_ne (by decide), fetch_put_of_ne (by decide), hh.magic]
  · rw [fetch_put_of_ne (by decide), fetch_put_of_ne (by decide), hh.prev]
  · exact fetch_put_same hnext
  · rw [fetch_put_of_ne (by decide), fetch_put_same hsize]

theorem merged_tail (hs : Seg v c e ys 0) (hc : a + headerSize ≤ c) (he : c + headerSize ≤ e)
    (ha : a < 2 ^ 64) : Seg (merged v a c (first e 0 ys) size) a e ys 0 := by
  cases ys with
  | nil => trivial
  | cons y ys =>
    have hpos : 0 < headerSize := by decide
    have hlink : Seg (put (put (put v a .size size) a .next e) e .prev a) a e (y :: ys) 0 := by
      refine Seg.put_prev (hs.congr_outside fun p hp _ => ?_) ha
      simp (disch := omega) only [put_apply_of_notMem]
    have he0 : linked (put (put v a .size size) a .next e) e a =
        put (put (put v a .size size) a .next e) e .prev a := if_pos (by omega)
    rw [merged, first, he0]
    exact hlink.congr_outside fun p hp _ => put_apply_of_notMem (by omega)

end Merged

/-- The heap after two neighbours have been merged. -/
theorem Repr.merge (vm : Vm) (hr : Repr h v (xs ++ b₁ :: b₂ :: ys))
    (hs : Shows h.pml4 vm (merged v (kheapStart + total xs) (kheapStart + total xs + b₁.size)
      (first (kheapStart + total xs + b₁.size + b₂.size) 0 ys) (b₁.size + b₂.size))) :
    Rewritten h v (xs ++ b₁ :: b₂ :: ys)
      { h with
        vm
        heapLast := lastAddr 0 kheapStart (xs ++ [⟨b₁.size + b₂.size, b₁.available⟩] ++ ys) }
      (merged v (kheapStart + total xs) (kheapStart + total xs + b₁.size)
        (first (kheapStart + total xs + b₁.size + b₂.size) 0 ys) (b₁.size + b₂.size))
      (xs ++ [⟨b₁.size + b₂.size, b₁.available⟩] ++ ys) := by
  obtain ⟨hxs, hh₁, hb₁, hh₂, hb₂, hys⟩ := hr.split
  have hcov := hr.covers
  have hlim := hr.limit
  rw [hr.brk] at hlim
  have h64 : kheapEnd + 1 < 2 ^ 64 := by decide
  simp only [total_append, total_cons, first] at hcov hlim hh₁
  set a := kheapStart + total xs with ha
  set c := a + b₁.size with hc
  set e := c + b₂.size with he
  have hca : Covers v a (a + headerSize) := hcov.mono (by omega) (by omega)
  have hcc : Covers v c (c + headerSize) := hcov.mono (by omega) (by omega)
  have hnext : first e 0 ys ≠ 0 → first e 0 ys = e ∧ Covers v e (e + headerSize) := by
    cases ys with
    | nil => exact fun h0 => absurd rfl h0
    | cons y ys =>
      have := hys.2.1
      simp only [total_cons] at hcov
      exact fun _ => ⟨rfl, hcov.mono (by omega) (by omega)⟩
  have hnext64 : first e 0 ys < 2 ^ 64 := by
    cases ys with
    | nil => exact Nat.two_pow_pos 64
    | cons y ys => exact lt_of_le_of_lt (by omega : e ≤ kheapEnd + 1) h64
  have hbefore : ∀ p < a, merged v a c (first e 0 ys) (b₁.size + b₂.size) p = v p := by
    intro p hp
    exact merged_apply (Or.inl hp) (Or.inl (by omega)) fun h0 =>
      Or.inl (by rw [(hnext h0).1]; omega)
  have hrepr := Repr.splice
    (by simpa using hr : Repr h v (xs ++ [b₁, b₂] ++ ys)) hs
    (hr.exact.merged hca hcc fun h0 => by rw [(hnext h0).1]; exact (hnext h0).2)
    (by simp : total [⟨b₁.size + b₂.size, b₁.available⟩] = total [b₁, b₂]) (by simp) (by simp)
    (hxs.congr_outside fun p _ hp => hbefore p hp)
    (by
      refine ⟨?_, Nat.le_add_right_of_le hb₁, trivial⟩
      simp only [total_cons, total_nil, Nat.add_zero, ← Nat.add_assoc]
      exact merged_header hh₁ (by omega) (fun h0 => by rw [(hnext h0).1]; omega) hnext64 (by omega))
    (by
      simp only [total_cons, total_nil, Nat.add_zero, ← Nat.add_assoc]
      exact merged_tail hys (by omega) (by omega) (by omega))
  refine ⟨hrepr, fun p _ ho => ?_, fun p ho k hk => ?_, le_rfl, fun _ => Or.inl⟩
  · obtain ⟨-, hoa, hrest⟩ := offHeaders_split.mp ho
    refine merged_apply hoa (hrest (c, b₂) List.mem_cons_self) fun h0 => ?_
    cases ys with
    | nil => exact absurd rfl h0
    | cons y ys => exact hrest (e, y) (List.mem_cons_of_mem _ List.mem_cons_self)
  · obtain ⟨hox, hoa, hrest⟩ := offHeaders_split.mp ho
    simp only [List.append_assoc, List.singleton_append] at hk ⊢
    refine offHeaders_split.mpr ⟨hox, hoa, fun k hk => hrest k (List.mem_cons_of_mem _ ?_)⟩ k hk
    rw [Nat.add_assoc]
    exact hk

/-- Merging two neighbours. -/
theorem mergeBlocks_spec (hr : Repr h v (xs ++ b₁ :: b₂ :: ys)) :
    Yields (h.mergeBlocks (kheapStart + total xs) (kheapStart + total xs + b₁.size)) fun h' =>
      Apart false h h' ∧ ∃ v', Rewritten h v (xs ++ b₁ :: b₂ :: ys) h' v'
        (xs ++ [⟨b₁.size + b₂.size, b₁.available⟩] ++ ys) := by
  obtain ⟨-, hh₁, hb₁, hh₂, hb₂, hys⟩ := hr.split
  have hcov := hr.covers
  have hlim := hr.limit
  rw [hr.brk] at hlim
  have h64 : kheapEnd + 1 < 2 ^ 64 := by decide
  have hmerge := fun vm => Repr.merge vm hr
  simp only [total_append, total_cons, first] at hcov hlim hh₁
  set a := kheapStart + total xs with ha
  set c := a + b₁.size with hc
  have hca : Covers v a (a + headerSize) := hcov.mono (by omega) (by omega)
  have hcc : Covers v c (c + headerSize) := hcov.mono (by omega) (by omega)
  have hmod : (b₁.size + b₂.size) % 2 ^ 64 = b₁.size + b₂.size := Nat.mod_eq_of_lt (by omega)
  unfold mergeBlocks
  have hs := hr.shows.start false
  refine hs.get_bind hca hh₁.magic ?_
  refine hs.get_bind hcc hh₂.magic ?_
  refine hs.get_bind hca hh₁.size ?_
  refine hs.get_bind hcc hh₂.size ?_
  rw [hmod]
  refine hs.set_bind hca fun vm₁ h₁ => ?_
  have hnext : fetch (put v a .size (b₁.size + b₂.size)) c .next =
      some (first (c + b₂.size) 0 ys) := (fetch_put_of_disjoint (by omega)).trans hh₂.next
  refine h₁.get_bind hcc.put hnext (h₁.set_bind hca.put fun vm₂ h₂ => ?_)
  refine h₂.get_bind hcc.put.put ((fetch_put_of_disjoint (by omega)).trans hnext) ?_
  dsimp only
  cases ys with
  | nil =>
    rw [if_neg (show ¬ first (c + b₂.size) 0 [] ≠ 0 from fun h0 => h0 rfl)]
    refine .bind_some rfl
      ((ShowsFrom.set (h := { h with heapLast := a }) h₂ hcc.put.put .magic 0).mono ?_)
    rintro _ ⟨vm₃, rfl, h₃⟩
    have := hmerge vm₃ h₃.shows
    exact ⟨⟨rfl, h₃.beside⟩, _, by simpa [lastAddr_append, lastAddr] using this⟩
  | cons y ys =>
    have hy := hys.2.1
    have hpos : 0 < headerSize := by decide
    simp only [total_cons] at hcov hlim
    have he0 : c + b₂.size ≠ 0 := by omega
    have hce : Covers v (c + b₂.size) (c + b₂.size + headerSize) := hcov.mono (by omega) (by omega)
    rw [first, if_pos he0]
    refine h₂.set_bind hce.put.put fun vm₃ h₃ => (h₃.set hcc.put.put.put .magic 0).mono ?_
    rintro _ ⟨vm₄, rfl, h₄⟩
    have hlinked : ∀ w, linked w (c + b₂.size) a = put w (c + b₂.size) .prev a :=
      fun w => if_pos he0
    have := hmerge vm₄ (by rw [merged, first, hlinked]; exact h₄.shows)
    have hl : lastAddr 0 kheapStart (xs ++ [⟨b₁.size + b₂.size, b₁.available⟩] ++ y :: ys) =
        h.heapLast := by
      rw [hr.last]
      simp [lastAddr_append, lastAddr, Nat.add_assoc]
    rw [hl] at this
    exact ⟨⟨rfl, h₄.beside⟩, _, this⟩

/-- Marking a block free. -/
theorem release_spec (hr : Repr h v (xs ++ blk :: ys)) :
    Yields (h.set (kheapStart + total xs) .available 1) fun h' =>
      Apart false h h' ∧
        ∃ v', Rewritten h v (xs ++ blk :: ys) h' v' (xs ++ ⟨blk.size, true⟩ :: ys) := by
  obtain ⟨hxs, hh, hb, hys⟩ := hr.split
  have hcov := hr.covers
  simp only [total_append, total_cons] at hcov
  set a := kheapStart + total xs with ha
  have hca : Covers v a (a + headerSize) := hcov.mono (by omega) (by omega)
  refine ((hr.shows.start false).set hca .available 1).mono ?_
  rintro _ ⟨vm, rfl, hs⟩
  have hrepr := Repr.splice
    (by simpa using hr : Repr h v (xs ++ [blk] ++ ys)) hs.shows (hr.exact.put hca)
    (by simp : total [⟨blk.size, true⟩] = total [blk]) (by simp) (by simp)
    (hxs.congr_outside fun p _ hp => put_apply_of_notMem (Or.inl hp))
    (by
      refine ⟨⟨fetch_put_same (by decide), ?_, ?_, ?_, ?_⟩, hb, trivial⟩ <;>
        rw [fetch_put_of_ne (by decide)]
      · exact hh.magic
      · exact hh.prev
      · simpa [first] using hh.next
      · exact hh.size)
    (by
      simp only [total_cons, total_nil, Nat.add_zero]
      exact hys.congr_outside fun p hp _ => put_apply_of_notMem (Or.inr (by omega)))
  have hl : lastAddr 0 kheapStart (xs ++ [⟨blk.size, true⟩] ++ ys) = h.heapLast := by
    rw [hr.last]
    simp [lastAddr_append, lastAddr]
  rw [hl, List.append_assoc, List.singleton_append] at hrepr
  refine ⟨⟨rfl, hs.beside⟩, _, hrepr,
    fun p _ ho => put_apply_of_notMem (offHeaders_split.mp ho).2.1, fun p ho => ?_, le_rfl,
    fun _ => Or.inl⟩
  have hsplit := offHeaders_split.mp ho
  exact offHeaders_split.mpr hsplit

theorem mergeNext_spec (hr : Repr h v (xs ++ ⟨n, true⟩ :: ys)) :
    Yields (h.mergeNext (kheapStart + total xs)) fun h' => Apart false h h' ∧ ∃ v' m ys',
      Rewritten h v (xs ++ ⟨n, true⟩ :: ys) h' v' (xs ++ ⟨m, true⟩ :: ys') ∧
      (m = n ∧ ys' = ys ∧ (∀ b ∈ ys.head?, b.available = false) ∨
        ∃ k, ys = ⟨k, true⟩ :: ys' ∧ m = n + k) := by
  obtain ⟨-, hh, hb, hys⟩ := hr.split
  have hcov := hr.covers
  simp only [total_append, total_cons] at hcov
  have hca : Covers v (kheapStart + total xs) (kheapStart + total xs + headerSize) :=
    hcov.mono (by omega) (by dsimp only at hb; omega)
  unfold mergeNext
  cases ys with
  | nil =>
    refine (hr.shows.start false).get_bind (x := 0) hca hh.next ?_
    exact .pure ⟨.refl false h, v, n, [], .refl hr, Or.inl ⟨rfl, rfl, by simp⟩⟩
  | cons y ys =>
    obtain ⟨hhy, hby, -⟩ := hys
    have hcy : Covers v (kheapStart + total xs + n) (kheapStart + total xs + n + headerSize) := by
      simp only [total_cons] at hcov
      exact hcov.mono (by omega) (by omega)
    have h0 : kheapStart + total xs + n ≠ 0 :=
      (Nat.add_pos_left (Nat.add_pos_left (by decide) _) n).ne'
    refine (hr.shows.start false).get_bind (x := kheapStart + total xs + n) hca hh.next ?_
    rw [if_neg h0]
    refine (hr.shows.start false).get_bind hcy hhy.available ?_
    obtain ⟨k, av⟩ := y
    cases av with
    | false => exact .pure ⟨.refl false h, v, n, _, .refl hr, Or.inl ⟨rfl, rfl, by simp⟩⟩
    | true =>
      refine (mergeBlocks_spec hr).mono ?_
      rintro h' ⟨ha, v', hw⟩
      exact ⟨ha, v', n + k, ys, by simpa using hw, Or.inr ⟨k, rfl, rfl⟩⟩

/-- The free block goes into the one before it, unless that is used. -/
theorem mergePrev_spec (hr : Repr h v (xs ++ ⟨n, true⟩ :: ys)) :
    Yields (h.mergePrev (kheapStart + total xs)) fun h' => Apart false h h' ∧ ∃ v' m xs',
      Rewritten h v (xs ++ ⟨n, true⟩ :: ys) h' v' (xs' ++ ⟨m, true⟩ :: ys) ∧
      (m = n ∧ xs' = xs ∧ (∀ b ∈ xs.getLast?, b.available = false) ∨
        ∃ k, xs = xs' ++ [⟨k, true⟩] ∧ m = k + n) := by
  obtain ⟨-, hh, hb, -⟩ := hr.split
  have hcov := hr.covers
  simp only [total_append, total_cons] at hcov
  have hca : Covers v (kheapStart + total xs) (kheapStart + total xs + headerSize) :=
    hcov.mono (by omega) (by dsimp only at hb; omega)
  unfold mergePrev
  refine (hr.shows.start false).get_bind hca hh.prev ?_
  rcases List.eq_nil_or_concat xs with rfl | ⟨xs, ⟨k, av⟩, rfl⟩
  · exact .pure ⟨.refl false h, v, n, [], .refl hr, Or.inl ⟨rfl, rfl, by simp⟩⟩
  · have hr' : Repr h v (xs ++ ⟨k, av⟩ :: ⟨n, true⟩ :: ys) := by simpa using hr
    obtain ⟨-, hhx, hbx, -⟩ := hr'.split
    have hcx : Covers v (kheapStart + total xs) (kheapStart + total xs + headerSize) := by
      simp only [total_append, total_cons, total_nil, List.concat_eq_append] at hcov
      exact hcov.mono (by omega) (by dsimp only at hbx; omega)
    have hlast : lastAddr 0 kheapStart (xs ++ [⟨k, av⟩]) = kheapStart + total xs := by
      simp [lastAddr_append, lastAddr]
    have h0 : kheapStart + total xs ≠ 0 := (Nat.add_pos_left (by decide) _).ne'
    rw [List.concat_eq_append, hlast, if_neg h0]
    refine (hr.shows.start false).get_bind hcx hhx.available ?_
    cases av with
    | false =>
      exact .pure ⟨.refl false h, v, n, _, by simpa using Rewritten.refl hr,
        Or.inl ⟨rfl, rfl, by simp⟩⟩
    | true =>
      have hm := mergeBlocks_spec hr'
      simp only [total_append, total_cons, total_nil, Nat.add_zero, ← Nat.add_assoc]
      refine hm.mono ?_
      rintro h' ⟨ha, v', hw⟩
      exact ⟨ha, v', k + n, xs, by simpa using hw, Or.inr ⟨k, rfl, rfl⟩⟩

/-- The loop of `kfree` stops at a used block. -/
theorem shrink_used (hr : Repr h v bs) (hu : ∀ b ∈ bs.getLast?, b.available = false) :
    h.shrink (n + 1) = some h := by
  rcases List.eq_nil_or_concat bs with rfl | ⟨xs, blk, rfl⟩
  · simp [shrink, hr.last, lastAddr]
  · rw [List.concat_eq_append] at hr hu
    obtain ⟨-, hh, hb, -⟩ := hr.split
    have hcov := hr.covers
    simp only [total_append, total_cons] at hcov
    have hlast : h.heapLast = kheapStart + total xs := by
      rw [hr.last]
      simp [lastAddr_append, lastAddr]
    have h0 : kheapStart + total xs ≠ 0 := (Nat.add_pos_left (by decide) _).ne'
    have hav : blk.available = false := hu blk (by simp)
    have hget := (hr.shows.get (hcov.mono (by omega) (by omega)) .available).trans hh.available
    rw [hav] at hget
    rw [shrink, hlast, if_neg h0, hget]
    rfl

theorem exists_placed_lastAddr (prev a : ℕ) (hne : bs ≠ []) :
    ∃ b, (lastAddr prev a bs, b) ∈ placed a bs := by
  induction bs generalizing prev a with
  | nil => exact absurd rfl hne
  | cons b bs ih =>
    rcases eq_or_ne bs [] with rfl | hbs
    · exact ⟨b, List.mem_cons_self⟩
    · obtain ⟨c, hc⟩ := ih a (a + b.size) hbs
      exact ⟨c, List.mem_cons_of_mem _ hc⟩

/-- The memory after the last block has been taken out of the list. -/
def detached (v : View) (last prev : ℕ) : View :=
  if prev ≠ 0 then put (put v last .magic 0) prev .next 0 else put v last .magic 0

theorem detached_apply {last : ℕ} (hl : p < last ∨ last + headerSize ≤ p)
    (hp : prev ≠ 0 → p < prev ∨ prev + headerSize ≤ p) : detached v last prev p = v p := by
  unfold detached
  split_ifs with h0
  · rw [put_apply_of_notMem (hp h0), put_apply_of_notMem hl]
  · exact put_apply_of_notMem hl

theorem Exact.detached {last brk : ℕ} (he : Exact v brk) (hl : Covers v last (last + headerSize))
    (hp : prev ≠ 0 → Covers v prev (prev + headerSize)) : Exact (detached v last prev) brk := by
  unfold Heap.detached
  split_ifs with h0
  · exact (he.put hl).put (hp h0).put
  · exact he.put hl

theorem detached_seg (hs : Seg v 0 kheapStart xs (kheapStart + total xs)) :
    Seg (detached v (kheapStart + total xs) (lastAddr 0 kheapStart xs)) 0 kheapStart xs 0 := by
  rcases eq_or_ne xs [] with rfl | hne
  · trivial
  · have hpos : 0 < kheapStart := by decide
    have h0 : lastAddr 0 kheapStart xs ≠ 0 := (hpos.trans_le (le_lastAddr hne)).ne'
    unfold detached
    rw [if_pos h0]
    exact Seg.put_next (hs.congr_outside fun p _ hp => put_apply_of_notMem (Or.inl hp))
      (by decide) hne

/-- Giving the last block back, with the break inside a page. -/
theorem dropLast_spec (hr : Repr h v (xs ++ [blk])) (hoff : h.kheapBreak % 4096 ≠ 0) :
    Yields h.dropLast fun h' => Apart false h h' ∧ ∃ v', Rewritten h v (xs ++ [blk]) h' v' xs := by
  obtain ⟨hxs, hh, hb, -⟩ := hr.split
  have hcov := hr.covers
  have hlast : h.heapLast = kheapStart + total xs := by
    rw [hr.last]
    simp [lastAddr_append, lastAddr]
  have hbrk : h.kheapBreak = kheapStart + total xs + blk.size := by
    rw [hr.brk]
    simp [Nat.add_assoc]
  have hlim := hr.limit
  have hpos : 0 < headerSize := by decide
  simp only [total_append, total_cons, total_nil, first] at hcov hb hh
  set a := kheapStart + total xs with ha
  have hca : Covers v a (a + headerSize) := hcov.mono (by omega) (by omega)
  have hprev : xs ≠ [] → lastAddr 0 kheapStart xs + headerSize ≤ a ∧
      Covers v (lastAddr 0 kheapStart xs) (lastAddr 0 kheapStart xs + headerSize) := by
    intro hne
    have hle := lastAddr_le hxs hne
    exact ⟨hle, hcov.mono (le_lastAddr hne) (by omega)⟩
  -- once the list is right, only the break has to move
  have hrest : ∀ vm, ShowsFrom false h.pml4 h.vm vm (detached v a (lastAddr 0 kheapStart xs)) →
      Yields (kbrk ((2 ^ 64 - blk.size) % 2 ^ 64) { h with
        vm
        heapStart := first kheapStart 0 xs
        heapLast := lastAddr 0 kheapStart xs } >>= fun r => pure r.2)
        fun h' => Apart false h h' ∧ ∃ v', Rewritten h v (xs ++ [blk]) h' v' xs := by
    intro vm hs
    obtain ⟨h', v', hk, ⟨calls, he', hcalls⟩, hb', hs', hex', hkeep⟩ := kbrk_shrink
      (h := { h with vm, heapStart := first kheapStart 0 xs, heapLast := lastAddr 0 kheapStart xs })
      hs.shows
      (hr.exact.detached hca fun h0 => (hprev fun he => h0 (by rw [he]; rfl)).2) hlim hoff
      (by omega : 0 < blk.size) (by dsimp only; omega)
    have hsub : h.kheapBreak - blk.size = a := by omega
    dsimp only at he' hs' hex' hkeep
    rw [hsub] at he' hex' hkeep
    have hpml4 : h'.pml4 = h.pml4 := by rw [he']
    have hbrk' : h'.kheapBreak = a := by rw [he']
    have hle : h'.kheapBreak ≤ h.kheapBreak := by omega
    have hrepr : Repr h' v' xs := ⟨hpml4 ▸ hs', hbrk' ▸ hex',
      (detached_seg hxs).congr_outside fun p _ hp => hkeep p hp, hbrk', hle.trans hlim,
      by rw [he'], by rw [he']⟩
    refine .bind_some hk (.pure ⟨⟨hpml4, hs.beside.trans hb'⟩, v', hrepr, fun p hp ho => ?_,
      fun p ho => ?_, hle, fun c hc => ?_⟩)
    · replace hp : p < a := hbrk' ▸ hp
      rw [hkeep p hp]
      refine detached_apply (Or.inl hp) fun h0 => ?_
      obtain ⟨b, hmem⟩ := exists_placed_lastAddr 0 kheapStart
        (show xs ≠ [] from fun he => h0 (by rw [he]; rfl))
      exact (offHeaders_split.mp ho).1 _ hmem
    · exact fun k hk => (offHeaders_split.mp ho).1 k hk
    · replace hc : c ∈ h'.calls := hc
      rw [he'] at hc
      exact (List.mem_append.mp hc).imp_right (hcalls c)
  unfold dropLast
  rw [hlast]
  refine (hr.shows.start false).set_bind hca fun vm₁ h₁ => ?_
  rw [hlast]
  refine h₁.get_bind hca.put ((fetch_put_of_ne (by decide)).trans hh.size) ?_
  refine h₁.get_bind hca.put ((fetch_put_of_ne (by decide)).trans hh.prev) ?_
  rcases eq_or_ne xs [] with rfl | hne
  · exact hrest vm₁ (by simpa [detached, lastAddr] using h₁)
  · have hz : lastAddr 0 kheapStart xs ≠ 0 :=
      (lt_of_lt_of_le (by decide : 0 < kheapStart) (le_lastAddr hne)).ne'
    dsimp only
    rw [if_pos hz]
    refine ShowsFrom.set_bind (h := { h with heapLast := a }) h₁ (hprev hne).2.put
      fun vm₂ h₂ => ?_
    have hstart : h.heapStart = first kheapStart 0 xs := by
      rw [hr.start]
      cases xs with
      | nil => exact absurd rfl hne
      | cons => rfl
    rw [← hstart] at hrest
    exact hrest vm₂ (by rw [detached, if_pos hz]; exact h₂)

theorem shrink_succ (hr : Repr h v (xs ++ [⟨n, true⟩])) (m : ℕ) :
    h.shrink (m + 1) = h.dropLast >>= shrink m := by
  obtain ⟨-, hh, hb, -⟩ := hr.split
  have hcov := hr.covers
  simp only [total_append, total_cons] at hcov
  have hlast : h.heapLast = kheapStart + total xs := by
    rw [hr.last]
    simp [lastAddr_append, lastAddr]
  have h0 : kheapStart + total xs ≠ 0 := (Nat.add_pos_left (by decide) _).ne'
  have hget := (hr.shows.get (hcov.mono (by omega) (by dsimp only at hb; omega)) .available).trans
    hh.available
  rw [shrink, hlast, if_neg h0, hget]
  rfl

theorem offHeaders_of_placed {k : ℕ × Block} (hs : Seg v 0 kheapStart bs 0)
    (hk : k ∈ placed kheapStart bs) (hlo : k.1 + headerSize ≤ p) (hhi : p < k.1 + k.2.size) :
    OffHeaders bs p := by
  intro l hl
  have := hs.size_le hl
  rcases placed_disjoint hk hl with rfl | hkl | hlk
  · exact Or.inr hlo
  · exact Or.inl (by omega)
  · exact Or.inr (by omega)

section Coalesced

variable {m m' : ℕ} {xs' ys' : List Block}

/-- What `kfree` leaves after the block. -/
theorem Quiet.after (hq : Quiet (xs ++ blk :: ys))
    (hm : ys' = ys ∧ (∀ b ∈ ys.head?, b.available = false) ∨ ∃ k, ys = ⟨k, true⟩ :: ys') :
    (∀ b ∈ ys'.head?, b.available = false) ∧ Quiet ys' ∧ (ys' = [] → ys = []) := by
  obtain ⟨-, hchain, -⟩ := List.isChain_append.mp hq.chain
  rcases hm with ⟨rfl, hhead⟩ | ⟨k, rfl⟩
  · refine ⟨hhead, ⟨hchain.tail, fun b hb => hq.tail b ?_⟩, id⟩
    cases ys' with
    | nil => cases hb
    | cons => simpa using hb
  · have hne : ys' ≠ [] := by
      rintro rfl
      exact absurd (hq.tail ⟨k, true⟩ (by simp)) (by simp)
    obtain ⟨y, ys, rfl⟩ := List.exists_cons_of_ne_nil hne
    rw [List.isChain_cons_cons, List.isChain_cons_cons] at hchain
    refine ⟨?_, ⟨hchain.2.2, fun b hb => hq.tail b (by simpa using hb)⟩, fun h => absurd h hne⟩
    simpa using hchain.2.1

theorem Quiet.before (hq : Quiet (xs ++ blk :: ys))
    (hm : xs' = xs ∧ (∀ b ∈ xs.getLast?, b.available = false) ∨ ∃ k, xs = xs' ++ [⟨k, true⟩]) :
    Quiet xs' := by
  obtain ⟨hchain, -, -⟩ := List.isChain_append.mp hq.chain
  rcases hm with ⟨rfl, hlast⟩ | ⟨k, rfl⟩
  · exact ⟨hchain, hlast⟩
  · obtain ⟨hchain, -, hlast⟩ := List.isChain_append.mp hchain
    refine ⟨hchain, fun b hb => ?_⟩
    by_contra hav
    exact absurd (hlast b hb ⟨k, true⟩ (by simp) (by simpa using hav)) (by simp)

theorem Quiet.insert (hx : Quiet xs) (hy : Quiet ys) (hne : ys ≠ [])
    (hhead : ∀ b ∈ ys.head?, b.available = false) : Quiet (xs ++ ⟨n, true⟩ :: ys) := by
  refine ⟨List.isChain_append.mpr ⟨hx.chain, List.isChain_cons.mpr ⟨fun b hb _ => hhead b hb,
    hy.chain⟩, fun b hb c _ hav => ?_⟩, fun b hb => hy.tail b ?_⟩
  · rw [hx.tail b hb] at hav
    cases hav
  · obtain ⟨y, ys, rfl⟩ := List.exists_cons_of_ne_nil hne
    simpa using hb

theorem placed_coalesced {k : ℕ × Block}
    (hn : m = n ∧ ys' = ys ∨ ∃ k, ys = ⟨k, true⟩ :: ys' ∧ m = n + k)
    (hp : m' = m ∧ xs' = xs ∨ ∃ k, xs = xs' ++ [⟨k, true⟩] ∧ m' = k + m)
    (hk : k ∈ placed kheapStart (xs ++ ⟨n, false⟩ :: ys)) (hused : k.2.available = false)
    (hne : k.1 ≠ kheapStart + total xs) :
    k ∈ placed kheapStart xs' ∨ k ∈ placed (kheapStart + total xs' + m') ys' := by
  have hsum : kheapStart + total xs' + m' = kheapStart + total xs + m := by
    rcases hp with ⟨rfl, rfl⟩ | ⟨j, rfl, rfl⟩
    · rfl
    · simp [Nat.add_assoc]
  rcases mem_placed_split.mp hk with hk | rfl | hk
  · left
    rcases hp with ⟨rfl, rfl⟩ | ⟨j, rfl, rfl⟩
    · exact hk
    · rcases mem_placed_split.mp hk with hk | rfl | hk
      · exact hk
      · cases hused
      · cases hk
  · exact absurd rfl hne
  · right
    rw [hsum]
    rcases hn with ⟨rfl, rfl⟩ | ⟨j, rfl, rfl⟩
    · exact hk
    · rcases List.mem_cons.mp hk with rfl | hk
      · cases hused
      · rw [← Nat.add_assoc]
        exact hk

theorem total_coalesced
    (hn : m = n ∧ ys' = ys ∨ ∃ k, ys = ⟨k, true⟩ :: ys' ∧ m = n + k)
    (hp : m' = m ∧ xs' = xs ∨ ∃ k, xs = xs' ++ [⟨k, true⟩] ∧ m' = k + m) :
    total (xs' ++ ⟨m', true⟩ :: ys') = total (xs ++ ⟨n, false⟩ :: ys) := by
  rcases hn with ⟨rfl, rfl⟩ | ⟨j, rfl, rfl⟩ <;> rcases hp with ⟨rfl, rfl⟩ | ⟨j, rfl, rfl⟩ <;>
    simp <;> omega

theorem used_coalesced
    (hn : m = n ∧ ys' = ys ∨ ∃ k, ys = ⟨k, true⟩ :: ys' ∧ m = n + k)
    (hp : m' = m ∧ xs' = xs ∨ ∃ k, xs = xs' ++ [⟨k, true⟩] ∧ m' = k + m) :
    used (xs ++ ⟨n, false⟩ :: ys) = used xs' + used ys' + 1 := by
  rcases hn with ⟨rfl, rfl⟩ | ⟨j, rfl, rfl⟩ <;> rcases hp with ⟨rfl, rfl⟩ | ⟨j, rfl, rfl⟩ <;>
    simp [used] <;> omega

end Coalesced

/-- What `kfree` of the block at `a` has done. -/
structure Freed (h : Heap) (v : View) (bs : List Block) (a : ℕ) (h' : Heap) (v' : View)
    (bs' : List Block) : Prop where
  repr : Repr h' v' bs'
  quiet : Quiet bs'
  used : used bs = used bs' + 1
  keeps : ∀ k ∈ placed kheapStart bs, k.2.available = false → k.1 ≠ a → k ∈ placed kheapStart bs'
  frame : ∀ k ∈ placed kheapStart bs, k.2.available = false → k.1 ≠ a →
    ∀ p, k.1 + headerSize ≤ p → p < k.1 + k.2.size → v' p = v p
  calls : ∀ c ∈ h'.calls, c ∈ h.calls ∨ c.Proper

theorem Rewritten.freed (hw : Rewritten h v bs h' v' bs') (hr : Repr h v bs) (hq : Quiet bs')
    (hu : used bs = used bs' + 1)
    (hk : ∀ k ∈ placed kheapStart bs, k.2.available = false → k.1 ≠ a → k ∈ placed kheapStart bs') :
    Freed h v bs a h' v' bs' where
  repr := hw.repr
  quiet := hq
  used := hu
  keeps := hk
  frame k hmem hused hne p hlo hhi := by
    have hb := placed_bounds (hk k hmem hused hne)
    rw [← hw.repr.brk] at hb
    exact hw.frame p (by omega) (offHeaders_of_placed hr.seg hmem hlo hhi)
  calls := hw.calls

/-- `kfree` of a used block returns. The last block must not end on a page boundary. -/
theorem kfree_spec (hr : Repr h v bs) (hq : Quiet bs) (hk : (a, ⟨n, false⟩) ∈ placed kheapStart bs)
    (hoff : h.heapLast = a → h.kheapBreak % 4096 ≠ 0) :
    Yields (h.kfree (a + headerSize)) fun h' =>
      Apart false h h' ∧ ∃ v' bs', Freed h v bs a h' v' bs' := by
  obtain ⟨xs, ys, rfl, ha⟩ := exists_split_of_placed hk
  dsimp only at ha
  subst ha
  obtain ⟨-, hh, hb, -⟩ := hr.split
  have hcov := hr.covers
  have hlast : kheapStart + total xs ≤ h.heapLast := by
    rcases le_lastAddr_of_placed hr.seg hk with he | hle
    · exact (he.trans hr.last.symm).le
    · rw [hr.last]
      exact le_trans (Nat.le_add_right _ _) hle
  have hstart : h.heapStart = kheapStart := by
    rw [hr.start]
    cases xs <;> rfl
  simp only [total_append, total_cons] at hcov
  have hca : Covers v (kheapStart + total xs) (kheapStart + total xs + headerSize) :=
    hcov.mono (by omega) (by dsimp only at hb; omega)
  have hpos : 0 < kheapStart := by decide
  unfold kfree
  rw [if_neg (by omega), if_neg (by omega), Nat.add_sub_cancel]
  refine (hr.shows.start false).get_bind hca hh.magic ?_
  refine (hr.shows.start false).get_bind hca hh.available ?_
  refine (release_spec hr).bind ?_
  rintro h₁ ⟨ha₁, v₁, hw₁⟩
  refine (mergeNext_spec hw₁.repr).bind ?_
  rintro h₂ ⟨ha₂, v₂, m, ys', hw₂, hn⟩
  refine (mergePrev_spec hw₂.repr).bind ?_
  rintro h₃ ⟨ha₃, v₃, m', xs', hw₃, hp⟩
  have hapart := (ha₁.trans ha₂).trans ha₃
  have hw := (hw₁.trans hw₂).trans hw₃
  have hn' : m = n ∧ ys' = ys ∨ ∃ k, ys = ⟨k, true⟩ :: ys' ∧ m = n + k :=
    hn.imp_left fun hn => ⟨hn.1, hn.2.1⟩
  have hp' : m' = m ∧ xs' = xs ∨ ∃ k, xs = xs' ++ [⟨k, true⟩] ∧ m' = k + m :=
    hp.imp_left fun hp => ⟨hp.1, hp.2.1⟩
  obtain ⟨hhead, hqy, hnil⟩ := hq.after (hn.imp And.right fun ⟨k, hk, _⟩ => ⟨k, hk⟩)
  have hqx := hq.before (hp.imp And.right fun ⟨k, hk, _⟩ => ⟨k, hk⟩)
  have hfuel : h₃.fuel = total (xs' ++ ⟨m', true⟩ :: ys') + 1 := by
    rw [fuel, hw.repr.brk, Nat.add_sub_cancel_left]
  rcases eq_or_ne ys' [] with rfl | hne
  · -- the freed block is the last one: one round of the loop, and then a used block
    obtain rfl := hnil rfl
    have hbrk : h₃.kheapBreak = h.kheapBreak := by
      rw [hw.repr.brk, hr.brk, total_coalesced hn' hp']
    have hlast' : h.heapLast = kheapStart + total xs := by
      rw [hr.last]
      simp [lastAddr_append, lastAddr]
    obtain ⟨h₄, hd, ha₄, v₄, hw₄⟩ := dropLast_spec hw.repr (hbrk ▸ hoff hlast')
    have hu := used_coalesced hn' hp'
    refine ⟨h₄, ?_, hapart.trans ha₄, v₄, xs', (hw.trans hw₄).freed hr hqx hu
      fun k hk hused hne => ?_⟩
    · obtain ⟨-, -, hm', -⟩ := hw.repr.split
      have hpos' : 0 < headerSize := by decide
      obtain ⟨f, hf⟩ : ∃ f, h₃.fuel = f + 1 + 1 := by
        simp only [total_append, total_cons] at hfuel
        dsimp only at hm'
        exact ⟨h₃.fuel - 2, by omega⟩
      rw [hf, shrink_succ hw.repr, hd]
      exact shrink_used hw₄.repr hqx.tail
    · exact (placed_coalesced hn' hp' hk hused hne).resolve_right (by simp [placed])
  · have hq' := hqx.insert (n := m') hqy hne hhead
    have hu : used (xs ++ ⟨n, false⟩ :: ys) = used (xs' ++ ⟨m', true⟩ :: ys') + 1 := by
      rw [used_coalesced hn' hp']
      simp [used]
    refine ⟨h₃, ?_, hapart, v₃, _, hw.freed hr hq' hu fun k hk hused hne => ?_⟩
    · rw [hfuel]
      exact shrink_used hw.repr hq'.tail
    · rcases placed_coalesced hn' hp' hk hused hne with hk | hk
      · exact mem_placed_split.mpr (Or.inl hk)
      · exact mem_placed_split.mpr (Or.inr (Or.inr hk))

end Heap

end Koerix
