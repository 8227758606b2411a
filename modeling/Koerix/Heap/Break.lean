import Koerix.Heap.Layout

/-! # Moving the break

`kbrk` maps the pages that a larger break reaches and unmaps those that a
smaller one leaves behind. A growing break maps exactly the missing pages. A
shrinking break unmaps one page too many if it starts on a page boundary; from
anywhere else it unmaps exactly the pages that are no longer needed.
-/

namespace Koerix

open AddrSpace ByteMemory

/-- `map` is called on pages that are not mapped, and `unmap` on pages that are. -/
def PageCall.Proper (c : PageCall) : Prop := c.mapped = !c.maps

namespace Heap

/-- The mapped pages are those that start below the break. -/
def Exact (v : View) (brk : ℕ) : Prop :=
  ∀ a, v a ≠ none ↔ kheapStart ≤ a ∧ a / 4096 * 4096 < brk

variable {h h' : Heap} {v v' : View} {q m brk inc dec page : ℕ}

theorem Exact.covers (he : Exact v brk) : Covers v kheapStart brk :=
  fun a hlo hhi => (he a).mpr ⟨hlo, by omega⟩

theorem Exact.congr {lo hi : ℕ} (he : Exact v brk) (hc : Covers v lo hi) (hc' : Covers v' lo hi)
    (hp : ∀ p, p < lo ∨ hi ≤ p → v' p = v p) : Exact v' brk := by
  intro p
  rw [← he p]
  by_cases hin : lo ≤ p ∧ p < hi
  · exact iff_of_true (hc' p hin.1 hin.2) (hc p hin.1 hin.2)
  · rw [hp p (by omega)]

theorem Exact.write {a n x : ℕ} (he : Exact v brk) (hc : Covers v a (a + n)) :
    Exact (write v a n x) brk :=
  he.congr hc hc.write fun _ => write_apply_of_notMem

theorem Exact.put {b x : ℕ} {f : Field} (he : Exact v brk) (hc : Covers v b (b + headerSize)) :
    Exact (put v b f x) brk := by
  have := f.offset_add_length_le
  exact he.write (hc.mono (by omega) (by omega))

theorem isMapped_eq (hs : Shows h.pml4 h.vm v) (hpage : page ∈ heapPages) :
    h.isMapped page = (v (4096 * page)).isSome := by
  have hiff := hs.frame_none_iff hpage
  unfold isMapped
  cases hf : AddrSpace.frameAt h.vm h.pml4 page 4 with
  | none => simp [hiff.mp hf]
  | some f =>
    cases hv : v (4096 * page) with
    | none => simp [hiff.mpr hv] at hf
    | some b => rfl

/-- What a loop of page calls leaves behind: other memory, and proper calls. -/
def Called (h h' : Heap) : Prop :=
  ∃ calls, h' = { h with vm := h'.vm, calls := h.calls ++ calls } ∧ ∀ c ∈ calls, c.Proper

theorem Called.refl (h : Heap) : Called h h := ⟨[], by simp, by simp⟩

theorem Called.trans {h'' : Heap} (h₁ : Called h h') (h₂ : Called h' h'') : Called h h'' := by
  obtain ⟨c₁, he₁, hc₁⟩ := h₁
  obtain ⟨c₂, he₂, hc₂⟩ := h₂
  refine ⟨c₁ ++ c₂, ?_, fun c hc => (List.mem_append.mp hc).elim (hc₁ c) (hc₂ c)⟩
  rw [he₂, he₁, List.append_assoc]

/-- Nothing beside the heap changes. -/
structure Apart (grow : Bool) (h h' : Heap) : Prop where
  pml4 : h'.pml4 = h.pml4
  beside : Beside grow heapPages h.pml4 h.vm h'.vm

theorem Apart.refl (grow : Bool) (h : Heap) : Apart grow h h := ⟨rfl, .refl grow _ _ _⟩

theorem Apart.trans {h'' : Heap} {grow : Bool} (h₁ : Apart grow h h') (h₂ : Apart grow h' h'') :
    Apart grow h h'' :=
  ⟨h₂.pml4.trans h₁.pml4, h₁.beside.trans (h₁.pml4 ▸ h₂.beside)⟩

theorem mapPage_spec (hs : Shows h.pml4 h.vm v) (hpage : page ∈ heapPages)
    (hun : v (4096 * page) = none) :
    (∀ h', h.mapPage page = some h' → Called h h' ∧ Beside true heapPages h.pml4 h.vm h'.vm ∧
      ∃ v', Shows h.pml4 h'.vm v' ∧ Shows.Grows v v' page) ∧
    (4 ≤ h.vm.pageMap.freeFrames → ∃ h', h.mapPage page = some h' ∧
      h.vm.pageMap.freeFrames ≤ h'.vm.pageMap.freeFrames + 4) := by
  obtain ⟨hsound, htotal⟩ := hs.map heapFlags hpage hun
  have hm : h.isMapped page = false := by simp [isMapped_eq hs hpage, hun]
  constructor
  · intro h' hh'
    simp only [mapPage, Option.bind_eq_bind, Option.bind_eq_some_iff, Prod.exists, Option.pure_def,
      Option.some.injEq, hm] at hh'
    obtain ⟨n, vm₁, ha, vm, hvm, rfl⟩ := hh'
    exact ⟨⟨[⟨true, page, false⟩], rfl, by simp [PageCall.Proper]⟩, hsound n vm₁ vm ha hvm⟩
  · intro hle
    obtain ⟨n, vm₁, vm, ha, hvm, hle'⟩ := htotal hle
    refine ⟨{ h with vm, calls := h.calls ++ [⟨true, page, h.isMapped page⟩] }, ?_, hle'⟩
    simp [mapPage, ha, hvm]

/-- The growing loop of `kbrk`. -/
theorem mapPages_spec (hs : Shows h.pml4 h.vm v)
    (hp : ∀ r, q ≤ r → r < q + m → r ∈ heapPages ∧ v (4096 * r) = none) :
    (∀ h', (List.range' q m).foldlM mapPage h = some h' → Called h h' ∧
      Beside true heapPages h.pml4 h.vm h'.vm ∧ ∃ v', Shows h.pml4 h'.vm v' ∧
        (∀ p, ¬ (q ≤ p / 4096 ∧ p / 4096 < q + m) → v' p = v p) ∧
        ∀ p, q ≤ p / 4096 → p / 4096 < q + m → v' p ≠ none) ∧
    (4 * m ≤ h.vm.pageMap.freeFrames → ∃ h', (List.range' q m).foldlM mapPage h = some h') := by
  induction m generalizing q h v with
  | zero =>
    refine ⟨fun h' hh' => ?_, fun _ => ⟨h, rfl⟩⟩
    obtain rfl : h = h' := by simpa using hh'
    exact ⟨.refl h, .refl true _ _ _, v, hs, fun _ _ => rfl, fun p _ _ => by omega⟩
  | succ m ih =>
    obtain ⟨hq, hvq⟩ := hp q le_rfl (by omega)
    obtain ⟨hsound, htotal⟩ := mapPage_spec hs hq hvq
    have hnext : ∀ h₁, h.mapPage q = some h₁ → Called h h₁ ∧
        Beside true heapPages h.pml4 h.vm h₁.vm ∧ ∃ v₁, Shows h₁.pml4 h₁.vm v₁ ∧
        Shows.Grows v v₁ q ∧ h₁.pml4 = h.pml4 ∧
        ∀ r, q + 1 ≤ r → r < q + 1 + m → r ∈ heapPages ∧ v₁ (4096 * r) = none := by
      intro h₁ hh₁
      obtain ⟨hcall, hb, v₁, hs₁, hg⟩ := hsound h₁ hh₁
      have hpml4 : h₁.pml4 = h.pml4 := by
        obtain ⟨calls, he, -⟩ := hcall
        rw [he]
      refine ⟨hcall, hb, v₁, hpml4 ▸ hs₁, hg, hpml4, fun r hlo hhi => ?_⟩
      obtain ⟨hr, hvr⟩ := hp r (by omega) (by omega)
      exact ⟨hr, by rw [hg.1 _ (by omega), hvr]⟩
    rw [List.range'_succ, List.foldlM_cons]
    constructor
    · intro h' hh'
      obtain ⟨h₁, hh₁, hh'⟩ := Option.bind_eq_some_iff.mp hh'
      obtain ⟨hcall, hb, v₁, hs₁, hg, hpml4, hp₁⟩ := hnext h₁ hh₁
      obtain ⟨hcall', hb', v', hs', hout, hin⟩ := (ih hs₁ hp₁).1 h' hh'
      rw [hpml4] at hb' hs'
      refine ⟨hcall.trans hcall', hb.trans hb', v', hs', fun p hnp => ?_, fun p hlo hhi => ?_⟩
      · rw [hout p (by omega), hg.1 p (by omega)]
      · rcases eq_or_ne (p / 4096) q with he | hne
        · rw [hout p (by omega)]
          exact hg.2 p he
        · exact hin p (by omega) (by omega)
    · intro hle
      obtain ⟨h₁, hh₁, hle₁⟩ := htotal (by omega)
      obtain ⟨-, -, v₁, hs₁, -, -, hp₁⟩ := hnext h₁ hh₁
      obtain ⟨h', hh'⟩ := (ih hs₁ hp₁).2 (by omega)
      exact ⟨h', by rw [hh₁]; exact hh'⟩

theorem unmapPage_spec (hs : Shows h.pml4 h.vm v) (hpage : page ∈ heapPages)
    (hm : v (4096 * page) ≠ none) : ∃ h', h.unmapPage page = some h' ∧ Called h h' ∧
      Beside false heapPages h.pml4 h.vm h'.vm ∧
      Shows h.pml4 h'.vm fun p => if p / 4096 = page then none else v p := by
  obtain ⟨vm, hvm, hb, hs'⟩ := hs.unmap hpage hm
  have hmapped : h.isMapped page = true := by
    rw [isMapped_eq hs hpage, Option.isSome_iff_ne_none]
    exact hm
  refine ⟨{ h with vm, calls := h.calls ++ [⟨false, page, h.isMapped page⟩] },
    by simp [unmapPage, hvm], ⟨[⟨false, page, h.isMapped page⟩], rfl, ?_⟩, hb, hs'⟩
  simp [PageCall.Proper, hmapped]

/-- The shrinking loop of `kbrk`. -/
theorem unmapPages_spec (hs : Shows h.pml4 h.vm v)
    (hp : ∀ r, q ≤ r → r < q + m → r ∈ heapPages ∧ v (4096 * r) ≠ none) :
    ∃ h', (List.range' q m).foldlM unmapPage h = some h' ∧ Called h h' ∧
      Beside false heapPages h.pml4 h.vm h'.vm ∧
      Shows h.pml4 h'.vm fun p => if q ≤ p / 4096 ∧ p / 4096 < q + m then none else v p := by
  induction m generalizing q h v with
  | zero =>
    refine ⟨h, rfl, .refl h, .refl false _ _ _, ?_⟩
    convert hs using 2 with p
    exact if_neg (by omega)
  | succ m ih =>
    obtain ⟨hq, hvq⟩ := hp q le_rfl (by omega)
    obtain ⟨h₁, hh₁, hcall, hb, hs₁⟩ := unmapPage_spec hs hq hvq
    have hpml4 : h₁.pml4 = h.pml4 := by
      obtain ⟨calls, he, -⟩ := hcall
      rw [he]
    obtain ⟨h', hh', hcall', hb', hs'⟩ := ih (q := q + 1) (hpml4 ▸ hs₁) fun r hlo hhi => by
      obtain ⟨hr, hvr⟩ := hp r (by omega) (by omega)
      rw [Nat.mul_div_cancel_left _ (by decide), if_neg (by omega)]
      exact ⟨hr, hvr⟩
    rw [hpml4] at hb' hs'
    refine ⟨h', by simp [List.range'_succ, hh₁, hh'], hcall.trans hcall', hb.trans hb', ?_⟩
    convert hs' using 2 with p
    by_cases he : p / 4096 = q
    · rw [if_pos (by omega), if_neg (by omega), if_pos he]
    · by_cases hc : q + 1 ≤ p / 4096 ∧ p / 4096 < q + 1 + m
      · rw [if_pos (by omega), if_pos hc]
      · rw [if_neg (by omega), if_neg hc, if_neg he]

theorem kbrk_zero (hlo : kheapStart ≤ h.kheapBreak) (hhi : h.kheapBreak ≤ kheapEnd + 1) :
    h.kbrk 0 = some (h.kheapBreak, h) := by
  have hwrap : (h.kheapBreak + 0) % 2 ^ 64 = h.kheapBreak :=
    Nat.mod_eq_of_lt (by simp only [kheapEnd] at *; omega)
  have hlast : (h.kheapBreak + 2 ^ 64 - 1) % 2 ^ 64 = h.kheapBreak - 1 := by
    simp only [kheapStart, kheapEnd] at *
    omega
  have hnone : (h.kheapBreak - 1) / 4096 + 1 -
      (h.kheapBreak / 4096 + if h.kheapBreak % 4096 ≠ 0 then 1 else 0) = 0 := by
    simp only [kheapStart] at *
    split_ifs <;> omega
  simp only [kbrk, hwrap, hlast, lt_irrefl, if_false, hnone]
  rfl

theorem kbrk_eq_map (hlo : kheapStart ≤ h.kheapBreak) (hinc : 0 < inc)
    (hhi : h.kheapBreak + inc ≤ kheapEnd + 1) :
    ∃ q m, h.kbrk inc = ((List.range' q m).foldlM mapPage
        { h with kheapBreak := h.kheapBreak + inc }).map (fun h' => (h.kheapBreak, h')) ∧
      m ≤ inc / 4096 + 1 ∧ ∀ r, q ≤ r ∧ r < q + m ↔
        h.kheapBreak ≤ 4096 * r ∧ 4096 * r < h.kheapBreak + inc := by
  have hwrap : (h.kheapBreak + inc) % 2 ^ 64 = h.kheapBreak + inc :=
    Nat.mod_eq_of_lt (by simp only [kheapEnd] at *; omega)
  have hlast : (h.kheapBreak + inc + 2 ^ 64 - 1) % 2 ^ 64 = h.kheapBreak + inc - 1 := by
    simp only [kheapEnd] at *
    omega
  set q := h.kheapBreak / 4096 + if h.kheapBreak % 4096 ≠ 0 then 1 else 0 with hq
  set m := (h.kheapBreak + inc - 1) / 4096 + 1 - q with hm
  -- the first page that is missing is the one at or above the break
  have hceil : h.kheapBreak ≤ 4096 * q ∧ 4096 * q < h.kheapBreak + 4096 := by
    rw [hq]
    split_ifs <;> omega
  refine ⟨q, m, ?_, by omega, fun r => by omega⟩
  simp only [kbrk, hwrap, hlast, if_neg (show ¬ h.kheapBreak + inc < h.kheapBreak by omega)]
  rw [← hq, ← hm, Option.map_eq_bind]
  rfl

theorem kbrk_eq_unmap (hhi : h.kheapBreak ≤ kheapEnd + 1) (hdec : 0 < dec)
    (hlo : kheapStart + dec ≤ h.kheapBreak) :
    ∃ q m, h.kbrk ((2 ^ 64 - dec) % 2 ^ 64) = ((List.range' q m).foldlM unmapPage
        { h with kheapBreak := h.kheapBreak - dec }).map (fun h' => (h.kheapBreak, h')) ∧
      ∀ r, q ≤ r ∧ r < q + m ↔ h.kheapBreak - dec ≤ 4096 * r ∧ 4096 * r ≤ h.kheapBreak := by
  have hwrap : (h.kheapBreak + (2 ^ 64 - dec) % 2 ^ 64) % 2 ^ 64 = h.kheapBreak - dec := by
    simp only [kheapEnd] at *
    omega
  set brk := h.kheapBreak - dec with hbrk
  set q := brk / 4096 + if brk % 4096 ≠ 0 then 1 else 0 with hq
  set m := h.kheapBreak / 4096 + 1 - q with hm
  have hceil : brk ≤ 4096 * q ∧ 4096 * q < brk + 4096 := by
    rw [hq]
    split_ifs <;> omega
  refine ⟨q, m, ?_, fun r => by omega⟩
  simp only [kbrk, hwrap, if_pos (show brk < h.kheapBreak by omega)]
  rw [← hq, ← hm, Option.map_eq_bind]
  rfl

/-- Growing maps exactly the pages that are missing below the new break. -/
theorem kbrk_grow (hs : Shows h.pml4 h.vm v) (he : Exact v h.kheapBreak)
    (hlo : kheapStart ≤ h.kheapBreak) (hinc : 0 < inc) (hhi : h.kheapBreak + inc ≤ kheapEnd + 1) :
    (∀ o h', h.kbrk inc = some (o, h') → o = h.kheapBreak ∧
      Called { h with kheapBreak := h.kheapBreak + inc } h' ∧
      Beside true heapPages h.pml4 h.vm h'.vm ∧
        ∃ v', Shows h.pml4 h'.vm v' ∧ Exact v' (h.kheapBreak + inc) ∧
        ∀ p, v p ≠ none → v' p = v p) ∧
    (4 * (inc / 4096 + 1) ≤ h.vm.pageMap.freeFrames →
      ∃ h', h.kbrk inc = some (h.kheapBreak, h')) := by
  obtain ⟨q, m, hkbrk, hm, hrange⟩ := kbrk_eq_map hlo hinc hhi
  have hpages : ∀ r, q ≤ r → r < q + m → r ∈ heapPages ∧ v (4096 * r) = none := by
    intro r hr hr'
    have := (hrange r).mp ⟨hr, hr'⟩
    refine ⟨?_, by_contra fun hn => ?_⟩
    · rw [mem_heapPages_iff]
      simp only [kheapStart, kheapEnd] at *
      omega
    · have := ((he _).mp hn).2
      omega
  obtain ⟨hsound, htotal⟩ :=
    mapPages_spec (h := { h with kheapBreak := h.kheapBreak + inc }) hs hpages
  rw [hkbrk]
  constructor
  · intro o h' hh'
    simp only [Option.map_eq_some_iff, Prod.mk.injEq] at hh'
    obtain ⟨h'', hh'', rfl, rfl⟩ := hh'
    obtain ⟨hcall, hb, v', hs', hout, hin⟩ := hsound h'' hh''
    refine ⟨rfl, hcall, hb, v', hs', fun a => ?_, fun p hp => hout p ?_⟩
    · have := hrange (a / 4096)
      by_cases ha : q ≤ a / 4096 ∧ a / 4096 < q + m
      · refine ⟨fun _ => ?_, fun _ => hin a ha.1 ha.2⟩
        simp only [kheapStart] at *
        omega
      · rw [hout a ha, he a]
        simp only [kheapStart] at *
        omega
    · have := hrange (p / 4096)
      have := ((he p).mp hp).2
      omega
  · intro hle
    obtain ⟨h', hh'⟩ := htotal (le_trans (Nat.mul_le_mul_left 4 (by omega)) hle)
    exact ⟨h', by rw [hh']; rfl⟩

/-- Shrinking from inside a page unmaps exactly the pages above the new break. -/
theorem kbrk_shrink (hs : Shows h.pml4 h.vm v) (he : Exact v h.kheapBreak)
    (hhi : h.kheapBreak ≤ kheapEnd + 1) (hoff : h.kheapBreak % 4096 ≠ 0) (hdec : 0 < dec)
    (hlo : kheapStart + dec ≤ h.kheapBreak) :
    ∃ h' v', h.kbrk ((2 ^ 64 - dec) % 2 ^ 64) = some (h.kheapBreak, h') ∧
      Called { h with kheapBreak := h.kheapBreak - dec } h' ∧
      Beside false heapPages h.pml4 h.vm h'.vm ∧ Shows h.pml4 h'.vm v' ∧
      Exact v' (h.kheapBreak - dec) ∧ ∀ p < h.kheapBreak - dec, v' p = v p := by
  obtain ⟨q, m, hkbrk, hrange⟩ := kbrk_eq_unmap hhi hdec hlo
  have hpages : ∀ r, q ≤ r → r < q + m → r ∈ heapPages ∧ v (4096 * r) ≠ none := by
    intro r hr hr'
    have := (hrange r).mp ⟨hr, hr'⟩
    rw [mem_heapPages_iff, he]
    simp only [kheapStart, kheapEnd] at *
    omega
  obtain ⟨h', hh', hcall, hb, hs'⟩ :=
    unmapPages_spec (h := { h with kheapBreak := h.kheapBreak - dec }) hs hpages
  have hbelow : ∀ p < h.kheapBreak - dec, ¬ (q ≤ p / 4096 ∧ p / 4096 < q + m) := by
    intro p hp hc
    have := (hrange (p / 4096)).mp hc
    omega
  refine ⟨h', _, by rw [hkbrk, hh']; rfl, hcall, hb, hs', fun a => ?_,
    fun p hp => if_neg (hbelow p hp)⟩
  have := hrange (a / 4096)
  dsimp only
  by_cases ha : q ≤ a / 4096 ∧ a / 4096 < q + m
  · rw [if_pos ha]
    simp only [ne_eq, not_true_eq_false, false_iff]
    omega
  · rw [if_neg ha, he a]
    omega

end Heap

end Koerix
