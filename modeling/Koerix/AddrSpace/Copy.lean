import Koerix.AddrSpace.Update

/-! # Copying a table

`clone` copies the user half of a PML4 and `triggerCow` copies a whole table
below it. Both loops leave the same picture behind: the old entries lose their
write permission, the new table repeats them, and every frame they refer to
gains one reference. That picture is enough to place the new table where the
old one is.
-/

namespace Koerix

open GenericPagingTable InDegree

namespace AddrSpace

/-- What a table copy leaves of an old entry: shared mappings keep their permissions. -/
def keep (e : GenericPagingTable) : GenericPagingTable := if shared e then e else demote e

section Keep

variable (e : GenericPagingTable)

@[simp] theorem present_keep : present (keep e) = present e := by
  unfold keep; split_ifs <;> simp
@[simp] theorem writable_keep : writable (keep e) = writable e := by
  unfold keep; split_ifs <;> simp
@[simp] theorem user_keep : user (keep e) = user e := by
  unfold keep; split_ifs <;> simp
@[simp] theorem shared_keep : shared (keep e) = shared e := by
  unfold keep; split_ifs <;> simp
@[simp] theorem noExec_keep : noExec (keep e) = noExec e := by
  unfold keep; split_ifs <;> simp
@[simp] theorem cacheDisable_keep : cacheDisable (keep e) = cacheDisable e := by
  unfold keep; split_ifs <;> simp
@[simp] theorem ppn_keep : ppn (keep e) = ppn e := by
  unfold keep; split_ifs <;> simp

theorem write_keep (h : shared e = false) : write (keep e) = false := by
  simp [keep, h]

end Keep

/-- The first `k` entries of the table `c` have been copied to the frame `n`. -/
structure CopiedUpTo (s s' : Vm) (c n k : ℕ) : Prop where
  other : ∀ g, g ≠ c → g ≠ n → s'.mem g = s.mem g
  old : ∀ i, s'.entry c i = if i < k ∧ present (s.entry c i) = true then keep (s.entry c i)
    else s.entry c i
  new : ∀ i < k, present (s'.entry n i) = present (s.entry c i) ∧
    (present (s.entry c i) = true → s'.entry n i = keep (s.entry c i))
  rest : ∀ i, k ≤ i → s'.entry n i = s.entry n i
  total : s'.pageMap.totalPages = s.pageMap.totalPages
  kernel : s'.kernelPml4 = s.kernelPml4
  counters : ∀ f < s.pageMap.totalPages, s'.pageMap.pagemap f =
    s.pageMap.pagemap f + UInt8.ofNat (∑ i ∈ Finset.range k, hit (counted (s.entry c i)) f)

variable {s s' : Vm} {live : List ℕ} {pos : Positions} {held base : ℕ → ℕ}
  {f t i d q n c k : ℕ} {e : GenericPagingTable}

theorem CopiedUpTo.zero (s : Vm) (c n : ℕ) : CopiedUpTo s s c n 0 where
  other _ _ _ := rfl
  old i := by simp
  new i hi := by omega
  rest _ _ := rfl
  total := rfl
  kernel := rfl
  counters f _ := by simp

theorem addRef_pagemap_hit {m : PageMap} {p : ℕ} (hf : f < m.totalPages) :
    (m.addRef p).pagemap f = m.pagemap f + UInt8.ofNat (hit (some p) f) := by
  rcases Nat.lt_or_ge p m.totalPages with hp | hp
  · rw [PageMap.addRef_pagemap hp]
    rcases eq_or_ne f p with rfl | hne
    · simp
    · simp [hit, hne, hne.symm]
  · rw [PageMap.addRef_of_le hp, hit_of_ne (by simp; omega)]
    simp

/-- One more entry: a step that does to index `k` what the picture says. -/
theorem CopiedUpTo.succ {s'' : Vm} (h : CopiedUpTo s s' c n k)
    (hother : ∀ g, g ≠ c → g ≠ n → s''.mem g = s'.mem g)
    (hold : ∀ i, i ≠ k → s''.entry c i = s'.entry c i)
    (hnew : ∀ i, i ≠ k → s''.entry n i = s'.entry n i)
    (holdk : s''.entry c k = if present (s.entry c k) = true then keep (s.entry c k)
      else s.entry c k)
    (hnewk : present (s''.entry n k) = present (s.entry c k) ∧
      (present (s.entry c k) = true → s''.entry n k = keep (s.entry c k)))
    (htotal : s''.pageMap.totalPages = s'.pageMap.totalPages)
    (hkernel : s''.kernelPml4 = s'.kernelPml4)
    (hcounters : ∀ f < s.pageMap.totalPages, s''.pageMap.pagemap f =
      s'.pageMap.pagemap f + UInt8.ofNat (hit (counted (s.entry c k)) f)) :
    CopiedUpTo s s'' c n (k + 1) where
  other g hc hn := (hother g hc hn).trans (h.other g hc hn)
  old i := by
    rcases eq_or_ne i k with rfl | hne
    · simpa using holdk
    · rw [hold i hne, h.old i]
      simp only [show i < k + 1 ↔ i < k by omega]
  new i hi := by
    rcases eq_or_ne i k with rfl | hne
    · exact hnewk
    · rw [hnew i hne]
      exact h.new i (by omega)
  rest i hi := by
    rw [hnew i (by omega)]
    exact h.rest i (by omega)
  total := htotal.trans h.total
  kernel := hkernel.trans h.kernel
  counters f hf := by
    rw [hcounters f hf, h.counters f hf, Finset.sum_range_succ, UInt8.ofNat_add, UInt8.add_assoc]

theorem CopiedUpTo.copyEntry (h : CopiedUpTo s s' c n k) (hcn : c ≠ n) :
    CopiedUpTo s (copyEntry c n s' k) c n (k + 1) := by
  have hk : s'.entry c k = s.entry c k := by simp [h.old k]
  have hent : ∀ {u : Vm} {e' : GenericPagingTable} {t i}, t ≠ n ∨ i ≠ k →
      (u.setEntry n k e').entry t i = u.entry t i := fun hne => Vm.entry_setEntry_of_ne hne
  have hent' : ∀ {u : Vm} {e' : GenericPagingTable} {t i}, t ≠ c ∨ i ≠ k →
      (u.setEntry c k e').entry t i = u.entry t i := fun hne => Vm.entry_setEntry_of_ne hne
  unfold AddrSpace.copyEntry
  rw [hk]
  by_cases hp : present (s.entry c k) = true
  · rw [if_pos hp]
    by_cases hsh : shared (s.entry c k) = true
    · rw [if_pos hsh]
      refine h.succ (fun g _ hn => Vm.mem_setEntry_of_ne hn) (fun i hi => hent (Or.inr hi))
        (fun i hi => hent (Or.inr hi)) ?_ ?_ rfl rfl ?_
      · rw [hent (Or.inl hcn), hk, if_pos hp, keep, if_pos hsh]
      · rw [Vm.entry_setEntry_self, hk]
        exact ⟨rfl, fun _ => by rw [keep, if_pos hsh]⟩
      · intro f _
        simp [counted, hsh]
    · rw [if_neg hsh]
      have hkeep : keep (s.entry c k) = demote (s.entry c k) := by rw [keep, if_neg hsh]
      refine h.succ ?_ ?_ ?_ ?_ ?_ ?_ rfl ?_
      · intro g hc hn
        rw [Vm.mem_setEntry_of_ne hn]
        exact Vm.mem_setEntry_of_ne hc
      · intro i hi
        rw [hent (Or.inr hi)]
        exact hent' (Or.inr hi)
      · intro i hi
        rw [hent (Or.inr hi)]
        exact hent' (Or.inr hi)
      · rw [hent (Or.inl hcn), if_pos hp, hkeep]
        exact Vm.entry_setEntry_self
      · have he : ((s'.setEntry c k (demote (s.entry c k))).addRef
            (ppn ((s'.setEntry c k (demote (s.entry c k))).entry c k))).entry c k =
              demote (s.entry c k) := Vm.entry_setEntry_self
        rw [Vm.entry_setEntry_self, he]
        exact ⟨present_demote _, fun _ => hkeep.symm⟩
      · simp
      · intro f hf
        have hcounted : counted (s.entry c k) = some (ppn (s.entry c k)) := by
          simp [counted, hp, hsh]
        rw [Vm.pageMap_setEntry, Vm.pageMap_addRef, Vm.pageMap_setEntry, Vm.entry_setEntry_self,
          addRef_pagemap_hit (h.total ▸ hf), hcounted, ppn_demote]
  · rw [if_neg hp]
    have hp' : present (s.entry c k) = false := by simpa using hp
    refine h.succ (fun g _ hn => Vm.mem_setEntry_of_ne hn) (fun i hi => hent (Or.inr hi))
      (fun i hi => hent (Or.inr hi)) ?_ ?_ rfl rfl ?_
    · rw [hent (Or.inl hcn), hk, if_neg hp]
    · rw [Vm.entry_setEntry_self, hp']
      exact ⟨by simp, fun hf => by cases hf⟩
    · intro f _
      simp [counted, hp']

theorem copiedUpTo_foldl_copyEntry (s : Vm) (hcn : c ≠ n) (k : ℕ) :
    CopiedUpTo s ((List.range k).foldl (AddrSpace.copyEntry c n) s) c n k := by
  induction k with
  | zero => exact .zero s c n
  | succ k ih =>
    rw [List.range_succ, List.foldl_append]
    exact ih.copyEntry hcn

theorem CopiedUpTo.cloneEntry (h : CopiedUpTo s s' c n k) (hcn : c ≠ n)
    (hsh : present (s.entry c k) = true → shared (s.entry c k) = false)
    (hempty : present (s.entry n k) = false) :
    CopiedUpTo s (cloneEntry c n s' k) c n (k + 1) := by
  have hk : s'.entry c k = s.entry c k := by simp [h.old k]
  unfold AddrSpace.cloneEntry
  rw [hk]
  by_cases hp : present (s.entry c k) = true
  · rw [if_pos hp]
    have hkeep : keep (s.entry c k) = demote (s.entry c k) := by simp [keep, hsh hp]
    have he : ((s'.setEntry c k (demote (s.entry c k))).setEntry n k
        ((s'.setEntry c k (demote (s.entry c k))).entry c k)).entry c k =
          demote (s.entry c k) := by
      rw [Vm.entry_setEntry_of_ne (Or.inl hcn), Vm.entry_setEntry_self]
    refine h.succ ?_ ?_ ?_ ?_ ?_ ?_ rfl ?_
    · intro g hc hn
      rw [Vm.mem_addRef, Vm.mem_setEntry_of_ne hn, Vm.mem_setEntry_of_ne hc]
    · intro i hi
      exact (Vm.entry_setEntry_of_ne (Or.inr hi)).trans (Vm.entry_setEntry_of_ne (Or.inr hi))
    · intro i hi
      exact (Vm.entry_setEntry_of_ne (Or.inr hi)).trans (Vm.entry_setEntry_of_ne (Or.inr hi))
    · rw [if_pos hp, hkeep]
      exact he
    · have hn : (((s'.setEntry c k (demote (s.entry c k))).setEntry n k
          ((s'.setEntry c k (demote (s.entry c k))).entry c k)).addRef
          (ppn (((s'.setEntry c k (demote (s.entry c k))).setEntry n k
          ((s'.setEntry c k (demote (s.entry c k))).entry c k)).entry c k))).entry n k =
            demote (s.entry c k) := Vm.entry_setEntry_self.trans Vm.entry_setEntry_self
      rw [hn]
      exact ⟨present_demote _, fun _ => hkeep.symm⟩
    · simp
    · intro f hf
      have hcounted : counted (s.entry c k) = some (ppn (s.entry c k)) := by
        simp [counted, hp, hsh hp]
      rw [Vm.pageMap_addRef, Vm.pageMap_setEntry, Vm.pageMap_setEntry, he,
        addRef_pagemap_hit (h.total ▸ hf), hcounted, ppn_demote]
  · rw [if_neg hp]
    have hp' : present (s.entry c k) = false := by simpa using hp
    refine h.succ (fun _ _ _ => rfl) (fun _ _ => rfl) (fun _ _ => rfl) ?_ ?_ rfl rfl ?_
    · rw [hk, if_neg hp]
    · rw [h.rest k le_rfl, hempty, hp']
      exact ⟨rfl, fun hf => by cases hf⟩
    · intro f _
      simp [counted, hp']

theorem copiedUpTo_foldl_cloneEntry (hcn : c ≠ n)
    (hsh : ∀ i < k, present (s.entry c i) = true → shared (s.entry c i) = false)
    (hempty : ∀ i < k, present (s.entry n i) = false) :
    CopiedUpTo s ((List.range k).foldl (AddrSpace.cloneEntry c n) s) c n k := by
  induction k with
  | zero => exact .zero s c n
  | succ k ih =>
    rw [List.range_succ, List.foldl_append]
    exact (ih (fun i hi => hsh i (by omega)) fun i hi => hempty i (by omega)).cloneEntry hcn
      (hsh k (by omega)) (hempty k (by omega))

theorem deg_row (w : ℕ) (tgt : ℕ × ℕ → Option ℕ) :
    deg ({n} ×ˢ Finset.range w) tgt f = ∑ i ∈ Finset.range w, hit (tgt (n, i)) f := by
  rw [deg_eq_sum, Finset.sum_product, Finset.sum_singleton]

namespace CopiedUpTo

variable (h : CopiedUpTo s s' c n (entryCount (3 - d)))

include h

theorem present_old (i : ℕ) : present (s'.entry c i) = present (s.entry c i) := by
  rw [h.old i]
  split_ifs <;> simp

theorem target_old (hne : t ≠ n) : target s' (t, i) = target s (t, i) := by
  rcases eq_or_ne t c with rfl | htc
  · change counted (s'.entry t i) = counted (s.entry t i)
    rw [h.old i]
    split_ifs <;> simp [counted]
  · exact target_congr (Vm.entry_congr (h.other t htc hne))

theorem target_new (hi : i < entryCount (3 - d)) : target s' (n, i) = target s (c, i) := by
  obtain ⟨hp, hk⟩ := h.new i hi
  rcases hpres : present (s.entry c i) with _ | _
  · rw [target_of_not_present (hp.trans hpres), target_of_not_present hpres]
  · simp [target, counted, hk hpres]

theorem count_eq (held : ℕ → ℕ) (hd : d < 4) (hn : n < s.pageMap.totalPages)
    (hpos : pos n = none) (f : ℕ) :
    count s' (Function.update pos n (some (d, q))) held f = count s pos held f +
      ∑ i ∈ Finset.range (entryCount (3 - d)), hit (target s (c, i)) f := by
  have hwidth : width (some (d, q)) = entryCount (3 - d) := by simp [width, hd]
  have hslots : deg (slots s.pageMap.totalPages pos) (target s') f =
      deg (slots s.pageMap.totalPages pos) (target s) f := by
    refine deg_congr ?_
    rintro ⟨t, i⟩ hk
    obtain ⟨_, d', q', hs⟩ := mem_slots.mp hk
    rw [h.target_old (by rintro rfl; simpa [hpos] using hs.pos_eq)]
  have hnew : ∑ i ∈ Finset.range (entryCount (3 - d)), hit (target s' (n, i)) f =
      ∑ i ∈ Finset.range (entryCount (3 - d)), hit (target s (c, i)) f :=
    Finset.sum_congr rfl fun i hi => by rw [h.target_new (Finset.mem_range.mp hi)]
  rw [count, h.total, deg_insert hn hpos, hslots, deg_row, hwidth, hnew, count]
  omega

end CopiedUpTo

/-- A full copy of a table may take the same position as the table. -/
theorem Shape.duplicate (live' : List ℕ) (h : Shape s live pos held) (hc : pos c = some (d, q))
    (hd : d < 4) (hn : n < s.pageMap.totalPages) (hpos : pos n = none) (hvac : Vacant s pos n)
    (hheld : 0 < held n) (hcopy : CopiedUpTo s s' c n (entryCount (3 - d)))
    (hlive : ∀ f, f ∈ live' ↔ f ∈ live ∨ d = 0 ∧ f = n) :
    Shape s' live' (Function.update pos n (some (d, q))) held := by
  have hcn : c ≠ n := by rintro rfl; simp [hpos] at hc
  have hslot : ∀ i < entryCount (3 - d), Slot pos c i d q := fun i hi => ⟨hc, hd, hi⟩
  have hcount := fun f => hcopy.count_eq (q := q) held hd hn hpos f
  have hle : ∀ f, count s pos held f ≤ count s' (Function.update pos n (some (d, q))) held f :=
    fun f => by rw [hcount]; exact Nat.le_add_right _ _
  have hext : ∀ {t i d' q'}, Slot pos t i d' q' → present (s.entry t i) = true →
      Function.update pos n (some (d, q)) (ppn (s.entry t i)) = pos (ppn (s.entry t i)) :=
    fun hs hp => Function.update_of_ne (hvac _ _ _ _ hs hp) ..
  -- an entry that survives the copy, in the old or in the new table
  have hkeep : ∀ i < entryCount (3 - d), present (s.entry c i) = true →
      EntryOk s.pageMap.totalPages (Function.update pos n (some (d, q)))
        (count s' (Function.update pos n (some (d, q))) held) d q i (keep (s.entry c i)) := by
    intro i hi hp
    have hok := h.entries (hslot i hi) hp
    exact {
      child := by simpa [hext (hslot i hi) hp] using hok.child
      device := fun hsh hlt => by
        rw [shared_keep] at hsh
        rw [ppn_keep] at hlt ⊢
        obtain ⟨hnone, h0⟩ := hok.device hsh hlt
        exact ⟨(hext (hslot i hi) hp).trans hnone, lt_of_lt_of_le h0 (hle _)⟩
      upper := fun hlt => by simpa using hok.upper hlt
      owned := fun hw hsh _ => by
        rw [write_keep _ (by simpa using hsh)] at hw
        cases hw }
  constructor
  case bounded =>
    intro f d' q' hf
    rw [hcopy.total]
    rcases eq_or_ne f n with rfl | hne
    · simp only [Function.update_self, Option.some.injEq, Prod.mk.injEq] at hf
      exact ⟨hn, by omega⟩
    · exact h.bounded (by rwa [Function.update_of_ne hne] at hf)
  case root =>
    intro f q'
    rw [hlive]
    rcases eq_or_ne f n with rfl | hne
    · have hl : f ∉ live := fun hm => by simpa [hpos] using h.root.mpr ⟨hm, rfl⟩
      simp only [Function.update_self, Option.some.injEq, Prod.mk.injEq, hl, false_or, and_true]
      constructor
      · rintro ⟨rfl, rfl⟩
        exact ⟨rfl, (h.root.mp hc).2⟩
      · rintro ⟨rfl, rfl⟩
        exact ⟨rfl, (h.root.mp hc).2⟩
    · rw [Function.update_of_ne hne]
      simpa [hne] using h.root
  case entries =>
    intro t i d' q' hs hpres
    rw [hcopy.total]
    rcases eq_or_ne t n with rfl | htn
    · have he := hs.pos_eq
      simp only [Function.update_self, Option.some.injEq, Prod.mk.injEq] at he
      obtain ⟨rfl, rfl⟩ := he
      obtain ⟨hp, hk⟩ := hcopy.new i hs.index
      rw [hp] at hpres
      rw [hk hpres]
      exact hkeep i hs.index hpres
    · have hs' := (slot_update_of_ne htn).mp hs
      rcases eq_or_ne t c with rfl | htc
      · obtain ⟨rfl, rfl⟩ := (hslot i (by
          obtain ⟨rfl, rfl⟩ : d' = d ∧ q' = q := by simpa [hc, eq_comm] using hs'.pos_eq
          exact hs'.index)).unique hs'
        rw [hcopy.present_old i] at hpres
        rw [hcopy.old i, if_pos ⟨hs'.index, hpres⟩]
        exact hkeep i hs'.index hpres
      · rw [Vm.entry_congr (hcopy.other t htc htn)] at hpres ⊢
        have hok := h.entries hs' hpres
        refine hok.mono (fun _ => hext hs' hpres) (fun _ h0 => lt_of_lt_of_le h0 (hle _))
          fun hsh _ h1 => ?_
        -- a frame with one reference is not one of those that gained another
        rw [hcount, h1, Nat.add_eq_left]
        refine Finset.sum_eq_zero fun j hj => hit_of_ne fun htj => htc ?_
        have hdeg : deg (slots s.pageMap.totalPages pos) (target s) (ppn (s.entry t i)) ≤ 1 :=
          le_trans (Nat.le_add_right _ _) h1.le
        have := eq_of_deg_le_one hdeg (h.slot_mem hs')
          (h.slot_mem (hslot j (Finset.mem_range.mp hj))) (target_of_present hpres hsh) htj
        exact congrArg Prod.fst this
  case refs =>
    intro f hf
    rw [hcopy.total] at hf
    rw [hcopy.counters f hf, h.refs hf, hcount, UInt8.ofNat_add]
    rfl
  case used =>
    intro f p hf
    rw [hcount]
    refine Nat.add_pos_left ?_ _
    rcases eq_or_ne f n with rfl | hne
    · exact Nat.add_pos_right _ hheld
    · exact h.used (p := p) (by rwa [Function.update_of_ne hne] at hf)

end AddrSpace

end Koerix
