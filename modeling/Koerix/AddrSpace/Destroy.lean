import Koerix.AddrSpace.Clone

/-! # Destroying

The destructor walks the whole tree below a PML4 and gives back one reference
for every present entry, whether or not the table that holds the entry is
shared. The references balance when no table of the tree has another user: then
every frame on the tree loses exactly the reference that the tree held.
-/

namespace Koerix

open GenericPagingTable InDegree

namespace AddrSpace

/-- The frames that the destructor frees below a frame `k` levels above the contents. -/
def released (s : Vm) : ℕ → ℕ → List ℕ
  | 0, _ => []
  | level + 1, table => (List.range (entryCount level)).flatMap fun i =>
      if present (s.entry table i) then
        released s level (ppn (s.entry table i)) ++ [ppn (s.entry table i)]
      else []

/-- Nothing below the table has another user: every table has one reference, and the frames of
shared pages are not in the page map. -/
def Severable (s : Vm) : ℕ → ℕ → Prop
  | 0, table => ∀ i < entryCount 0, present (s.entry table i) = true →
      shared (s.entry table i) = true → s.pageMap.totalPages ≤ ppn (s.entry table i)
  | level + 1, table => ∀ i < entryCount (level + 1), present (s.entry table i) = true →
      s.pageMap.getRefs (ppn (s.entry table i)) = 1 ∧ Severable s level (ppn (s.entry table i))

instance decidableSeverable (s : Vm) : ∀ level table, Decidable (Severable s level table)
  | 0, table => by
    unfold Severable
    infer_instance
  | level + 1, table => by
    have := decidableSeverable s level
    unfold Severable
    infer_instance

variable {s : Vm} {live : List ℕ} {pos : Positions} {base : ℕ → ℕ}
  {f t i d d' q q' r k virt level : ℕ} {m : PageMap}

theorem foldlM_flatMap {σ α β : Type} (g : α → List β) (step : σ → β → Option σ) (l : List α)
    (x : σ) : (l.flatMap g).foldlM step x = l.foldlM (fun x a => (g a).foldlM step x) x := by
  induction l generalizing x with
  | nil => rfl
  | cons a l ih =>
    rw [List.flatMap_cons, List.foldlM_append, List.foldlM_cons]
    exact congrArg _ (funext ih)

theorem releaseTable_eq (s : Vm) (level t : ℕ) (m : PageMap) :
    releaseTable s level t m = (released s (level + 1) t).foldlM PageMap.free m := by
  induction level generalizing t m with
  | zero =>
    rw [released, foldlM_flatMap, releaseTable, entryCount, if_neg (by decide)]
    congr 1
    funext m i
    split_ifs <;> simp [released]
  | succ level ih =>
    rw [released, foldlM_flatMap, releaseTable]
    congr 1
    funext m i
    split_ifs
    · rw [List.foldlM_append, ← ih]
      simp
    · rfl

theorem destroy_eq (s : Vm) (r : ℕ) : destroy r s =
    ((released s 4 r ++ [r]).foldlM PageMap.free s.pageMap).map fun m =>
      { s with pageMap := m } := by
  rw [destroy, releaseTable_eq, List.foldlM_append]
  cases (released s 4 r).foldlM PageMap.free s.pageMap with
  | none => rfl
  | some m =>
    simp only [Option.bind_eq_bind, Option.bind_some, List.foldlM_cons, List.foldlM_nil,
      Option.pure_def]
    cases m.free r <;> rfl

/-- The frame is on the tree below `r`. -/
def OnTree (s : Vm) (pos : Positions) (r f : ℕ) : Prop :=
  ∃ d q, pos f = some (d, q) ∧ frameAt s r (pageAt d q) d = some f

theorem sum_range_single {w i₀ : ℕ} {c : Prop} [Decidable c] (h : c → i₀ < w) :
    ((List.range w).map fun i => if i = i₀ ∧ c then 1 else 0).sum = if c then 1 else 0 := by
  change ∑ i ∈ Finset.range w, (if i = i₀ ∧ c then 1 else 0) = _
  by_cases hc : c
  · simp [hc, h hc]
  · simp [hc]

theorem Severable.table (hsev : Severable s 3 r) (hv : virt < userPages) (hd : d ≤ 3)
    (hf : frameAt s r virt d = some t) :
    Severable s (3 - d) t ∧ (0 < d → s.pageMap.getRefs t = 1) := by
  induction d generalizing t with
  | zero =>
    cases hf
    exact ⟨hsev, fun h => absurd h (lt_irrefl 0)⟩
  | succ d ih =>
    obtain ⟨u, hu, hp, rfl⟩ := frameAt_succ_eq_some_iff.mp hf
    obtain ⟨hs, -⟩ := ih (by omega) hu
    have hidx := tableIndex_lt_entryCount (d := d) hv
    rw [show 3 - d = 3 - (d + 1) + 1 by omega] at hs hidx hp ⊢
    obtain ⟨hone, hbelow⟩ := hs _ hidx hp
    exact ⟨hbelow, fun _ => hone⟩

namespace Settled

theorem counted_of_severable (h : Settled base s live pos) (hs : Slot pos t i d q)
    (hsev : Severable s (3 - d) t) (hp : present (s.entry t i) = true)
    (hlt : ppn (s.entry t i) < s.pageMap.totalPages) :
    shared (s.entry t i) = false ∧ pos (ppn (s.entry t i)) = some (d + 1, 512 * q + i) := by
  have hsh : shared (s.entry t i) = false := by
    rcases Nat.lt_or_ge d 3 with hd | hd
    · exact ((h.entries hs hp).upper hd).2.1
    obtain rfl : d = 3 := by have := hs.depth; omega
    by_contra hsh
    have := hsev i hs.index hp (by simpa using hsh)
    omega
  exact ⟨hsh, (h.entries hs hp).child hsh hlt⟩

/-- The destructor frees a frame once if it is on the tree, and else not at all. -/
theorem count_released (h : Settled base s live pos) (hf : pos f = some (d', q'))
    (hk : d + k = 4) (hsev : 0 < k → Severable s (k - 1) t) (ht : 0 < k → pos t = some (d, q))
    (hpath : 0 < k → ∀ w, prefixAt d w = q → frameAt s r w d = some t) :
    (released s k t).count f = if d < d' ∧ prefixAt d (pageAt d' q') = q ∧
      frameAt s r (pageAt d' q') d' = some f then 1 else 0 := by
  induction k generalizing d q t with
  | zero =>
    have := (h.bounded hf).2
    rw [released, List.count_nil, if_neg (by omega)]
  | succ k ih =>
    have hd : d < 4 := by omega
    have hlevel : 3 - d = k := by omega
    have hown := hpath (Nat.succ_pos k)
    replace hsev : Severable s k t := hsev (Nat.succ_pos k)
    have hv := h.pageAt_lt hf
    have hi₀ : tableIndex k (pageAt d' q') < entryCount k := tableIndex_lt_of_le hv (by omega)
    rw [released, List.count_flatMap, ← sum_range_single fun _ => hi₀]
    refine congrArg List.sum (List.map_congr_left fun i hi => ?_)
    have hi' : i < entryCount k := List.mem_range.mp hi
    have hs : Slot pos t i d q := ⟨ht (Nat.succ_pos k), hd, by rwa [hlevel]⟩
    have hsucc := prefixAt_succ hd (pageAt d' q')
    rw [hlevel] at hsucc
    have hi₅ : i < 512 := lt_of_lt_of_le hi' (entryCount_le k)
    have hi₆ := tableIndex_lt k (pageAt d' q')
    rw [Function.comp_apply]
    by_cases hp : present (s.entry t i) = true
    · rw [if_pos hp, List.count_append, List.count_singleton]
      by_cases hlt : ppn (s.entry t i) < s.pageMap.totalPages
      · obtain ⟨-, hc⟩ := h.counted_of_severable hs (by rwa [hlevel]) hp hlt
        have hchild := frameAt_child hs hp rfl hown
        have hbelow : 0 < k → Severable s (k - 1) (ppn (s.entry t i)) := by
          intro hk₀
          obtain ⟨k, rfl⟩ : ∃ c, k = c + 1 := ⟨k - 1, by omega⟩
          exact (hsev i hi' hp).2
        rw [ih (by omega) hbelow (fun _ => hc) fun _ => hchild]
        have hcf : ppn (s.entry t i) = f ↔ d' = d + 1 ∧ i = tableIndex k (pageAt d' q') ∧
            prefixAt d (pageAt d' q') = q ∧ frameAt s r (pageAt d' q') d' = some f := by
          constructor
          · rintro rfl
            obtain ⟨rfl, rfl⟩ : d' = d + 1 ∧ q' = 512 * q + i := by
              simpa [eq_comm] using hc.symm.trans hf
            have hq := prefixAt_pageAt (d + 1) (512 * q + i)
            exact ⟨rfl, by omega, by omega, hchild _ hq⟩
          · rintro ⟨rfl, rfl, hq, hframe⟩
            rw [hchild _ (by omega)] at hframe
            exact Option.some.inj hframe
        by_cases hall : frameAt s r (pageAt d' q') d' = some f
        · simp only [beq_iff_eq, hcf, hall, and_true]
          split_ifs <;> omega
        · simp [hcf, hall]
      · -- only a page can be outside the page map, and nothing is freed below it
        have hd₃ : ¬ d < 3 := fun h3 => hlt ((h.entries hs hp).upper h3).1
        obtain rfl : k = 0 := by omega
        have hne : ppn (s.entry t i) ≠ f := fun he => hlt (he ▸ (h.bounded hf).1)
        rw [released, List.count_nil, if_neg (by simpa using hne), if_neg]
        rintro ⟨rfl, hdd, hq, hframe⟩
        obtain rfl : d = 3 := by omega
        obtain rfl : d' = 4 := by have := (h.bounded hf).2; omega
        obtain ⟨t', ht', -, hppn⟩ := frameAt_succ_eq_some_iff.mp hframe
        rw [hown _ hq] at ht'
        cases ht'
        exact hne hppn
    · rw [if_neg hp, List.count_nil, if_neg]
      rintro ⟨rfl, hdd, hq, hframe⟩
      have := present_of_frameAt hframe hdd (hown _ hq)
      rw [hlevel] at this
      exact hp this

variable (h : Settled base s live pos)

include h

theorem frameAt_of_onTree (hp : pos f = some (d, q)) (ho : OnTree s pos r f) (w : ℕ)
    (hw : prefixAt d w = q) : frameAt s r w d = some f := by
  obtain ⟨d', q', hp', hf⟩ := ho
  obtain ⟨rfl, rfl⟩ : d' = d ∧ q' = q := by simpa [eq_comm] using hp.symm.trans hp'
  rw [← hf]
  exact frameAt_congr_prefixAt (h.bounded hp).2 (hw.trans (prefixAt_pageAt d' q').symm)

theorem onTree_root (hr : r ∈ live) : OnTree s pos r r := ⟨0, 0, h.root.mpr ⟨hr, rfl⟩, rfl⟩

theorem onTree_child (hs : Slot pos t i d q) (ho : OnTree s pos r t)
    (hp : present (s.entry t i) = true)
    (hc : pos (ppn (s.entry t i)) = some (d + 1, 512 * q + i)) :
    OnTree s pos r (ppn (s.entry t i)) :=
  ⟨d + 1, 512 * q + i, hc, frameAt_child hs hp rfl (h.frameAt_of_onTree hs.pos_eq ho) _
    (prefixAt_pageAt (d + 1) (512 * q + i))⟩

theorem exists_slot_of_onTree (hr : r ∈ live) (hp : pos f = some (d + 1, q))
    (ho : OnTree s pos r f) : ∃ t i q', Slot pos t i d q' ∧ OnTree s pos r t ∧
      present (s.entry t i) = true ∧ ppn (s.entry t i) = f := by
  have hd := (h.bounded hp).2
  have hf := h.frameAt_of_onTree hp ho _ (prefixAt_pageAt (d + 1) q)
  obtain ⟨t, ht, hpres, hppn⟩ := frameAt_succ_eq_some_iff.mp hf
  have hs := h.frameAt_slot hr (h.pageAt_lt hp) (by omega) ht
  refine ⟨t, _, _, hs, ⟨d, _, hs.pos_eq, ?_⟩, hpres, hppn⟩
  rw [← ht]
  exact frameAt_congr_prefixAt (by omega) (prefixAt_pageAt d _)

theorem count_of_onTree (hr : r ∈ live) (hsev : Severable s 3 r) (hp : pos t = some (d, q))
    (hd : d < 4) (ho : OnTree s pos r t) : count s pos (restHeld base live) t = 1 := by
  have hf := h.frameAt_of_onTree hp ho _ (prefixAt_pageAt d q)
  rcases Nat.eq_zero_or_pos d with rfl | hpos
  · cases hf
    simp [count, h.deg_root hr, restHeld, hr, h.base_pos hp]
  · rw [← h.getRefs_eq (h.bounded hp).1]
    exact (hsev.table (h.pageAt_lt hp) (by omega) hf).2 hpos

open Classical in
/-- The tree holds one reference to each of its frames below the PML4, and no others. -/
theorem deg_onTree (hr : r ∈ live) (hsev : Severable s 3 r) (hp : pos f = some (d, q)) :
    deg ((slots s.pageMap.totalPages pos).filter fun k => OnTree s pos r k.1) (target s) f =
      if OnTree s pos r f ∧ d ≠ 0 then 1 else 0 := by
  have hlt := (h.bounded hp).1
  split_ifs with hc
  · obtain ⟨ho, hd⟩ := hc
    obtain ⟨d, rfl⟩ : ∃ c, d = c + 1 := ⟨d - 1, by omega⟩
    obtain ⟨t, i, q', hs, ht, hpres, rfl⟩ := h.exists_slot_of_onTree hr hp ho
    have hsv := (hsev.table (h.pageAt_lt hs.pos_eq) (by have := hs.depth; omega)
      (h.frameAt_of_onTree hs.pos_eq ht _ (prefixAt_pageAt d q'))).1
    obtain ⟨hsh, hpos⟩ := h.counted_of_severable hs hsv hpres hlt
    refine Finset.card_eq_one.mpr ⟨(t, i), ?_⟩
    ext ⟨t', i'⟩
    simp only [Finset.mem_filter, Finset.mem_singleton]
    constructor
    · rintro ⟨⟨hk, ho'⟩, ht'⟩
      obtain ⟨d', q'', hs', hpos'⟩ := h.pos_of_target hk ht' hlt
      rw [hpos] at hpos'
      simp only [Option.some.injEq, Prod.mk.injEq, Nat.add_right_cancel_iff] at hpos'
      have hi : i < 512 := lt_of_lt_of_le hs.index (entryCount_le _)
      have hi' : i' < 512 := lt_of_lt_of_le hs'.index (entryCount_le _)
      obtain ⟨rfl, hq⟩ := hpos'
      obtain ⟨rfl, rfl⟩ : q' = q'' ∧ i = i' := by omega
      have h₁ := h.frameAt_of_onTree hs.pos_eq ht _ (prefixAt_pageAt d q')
      have h₂ := h.frameAt_of_onTree hs'.pos_eq ho' _ (prefixAt_pageAt d q')
      rw [h₁] at h₂
      cases h₂
      rfl
    · intro he
      obtain ⟨rfl, rfl⟩ := Prod.mk.inj he
      exact ⟨⟨h.slot_mem hs, ht⟩, target_eq_some_iff.mpr ⟨⟨hpres, hsh⟩, rfl⟩⟩
  · refine deg_eq_zero_iff.mpr ?_
    rintro ⟨t, i⟩ hk ht
    obtain ⟨hk, ho⟩ := Finset.mem_filter.mp hk
    obtain ⟨d', q', hs, hpos⟩ := h.pos_of_target hk ht hlt
    obtain ⟨⟨hpres, -⟩, rfl⟩ := target_eq_some_iff.mp ht
    obtain ⟨rfl, rfl⟩ : d = d' + 1 ∧ q = 512 * q' + i := by simpa using hp.symm.trans hpos
    exact hc ⟨h.onTree_child hs ho hpres hpos, Nat.succ_ne_zero d'⟩

theorem pos_of_mem_released (hk : d + k = 4) (hsev : 0 < k → Severable s (k - 1) t)
    (ht : 0 < k → pos t = some (d, q)) (hf : f ∈ released s k t)
    (hlt : f < s.pageMap.totalPages) : ∃ p, pos f = some p := by
  induction k generalizing d q t with
  | zero => cases hf
  | succ k ih =>
    replace hsev : Severable s k t := hsev (Nat.succ_pos k)
    obtain ⟨i, hi, hm⟩ := List.mem_flatMap.mp hf
    have hlevel : 3 - d = k := by omega
    have hi' : i < entryCount k := List.mem_range.mp hi
    have hs : Slot pos t i d q := ⟨ht (Nat.succ_pos k), by omega, by rwa [hlevel]⟩
    split_ifs at hm with hp
    · rcases List.mem_append.mp hm with hm | hm
      · rcases Nat.eq_zero_or_pos k with rfl | hk₀
        · cases hm
        obtain ⟨k, rfl⟩ : ∃ c, k = c + 1 := ⟨k - 1, by omega⟩
        have hub := ((h.entries hs hp).upper (by omega)).1
        exact ih (by omega) (fun _ => (hsev i hi' hp).2)
          (fun _ => (h.counted_of_severable hs (by rwa [hlevel]) hp hub).2) hm
      · obtain rfl := List.mem_singleton.mp hm
        exact ⟨_, (h.counted_of_severable hs (by rwa [hlevel]) hp hlt).2⟩
    · cases hm

open Classical in
/-- Every frame of the tree loses one reference, and no other frame does. -/
theorem count_freed (hr : r ∈ live) (hsev : Severable s 3 r) (hlt : f < s.pageMap.totalPages) :
    (released s 4 r ++ [r]).count f = if OnTree s pos r f then 1 else 0 := by
  have hroot := h.root.mpr ⟨hr, rfl⟩
  rw [List.count_append, List.count_singleton]
  rcases hp : pos f with _ | ⟨d, q⟩
  · have hne : r ≠ f := by
      rintro rfl
      simp [hroot] at hp
    have hno : ¬ OnTree s pos r f := by
      rintro ⟨d, q, hp', -⟩
      simp [hp] at hp'
    have hout : f ∉ released s 4 r := by
      intro hm
      obtain ⟨p, hp'⟩ := h.pos_of_mem_released (d := 0) rfl (fun _ => hsev) (fun _ => hroot) hm hlt
      simp [hp] at hp'
    rw [List.count_eq_zero.mpr hout, if_neg (by simpa using hne), if_neg hno]
  · rw [h.count_released (d := 0) (q := 0) hp rfl (fun _ => hsev) (fun _ => hroot) fun _ _ _ => rfl]
    have hiff : OnTree s pos r f ↔ frameAt s r (pageAt d q) d = some f :=
      ⟨fun ho => h.frameAt_of_onTree hp ho _ (prefixAt_pageAt d q), fun hf => ⟨d, q, hp, hf⟩⟩
    rcases Nat.eq_zero_or_pos d with rfl | hd
    · simp [hiff, frameAt]
    · have hne : r ≠ f := by
        rintro rfl
        rw [hroot] at hp
        cases hp
        exact lt_irrefl 0 hd
      simp [hiff, hd, hne, prefixAt_zero (h.pageAt_lt hp)]

omit h

open Classical in
/-- The positions without the frames that are free once the tree is gone. -/
noncomputable def severed (s : Vm) (pos : Positions) (refs : ℕ → ℕ) (r : ℕ) : Positions :=
  fun f => if OnTree s pos r f ∧ refs f = 1 then none else pos f

theorem pos_of_severed {refs : ℕ → ℕ} {p : ℕ × ℕ} (hp : severed s pos refs r f = some p) :
    pos f = some p ∧ ¬ (OnTree s pos r f ∧ refs f = 1) := by
  unfold severed at hp
  split_ifs at hp with hc
  exact ⟨hp, hc⟩

theorem severed_of_not {refs : ℕ → ℕ} (hn : ¬ (OnTree s pos r f ∧ refs f = 1)) :
    severed s pos refs r f = pos f := if_neg hn

include h

open Classical in
theorem slots_severed (hr : r ∈ live) (hsev : Severable s 3 r) :
    slots s.pageMap.totalPages (severed s pos (count s pos (restHeld base live)) r) =
      (slots s.pageMap.totalPages pos).filter fun k => ¬ OnTree s pos r k.1 := by
  ext ⟨t, i⟩
  rw [Finset.mem_filter, mem_slots, mem_slots]
  constructor
  · rintro ⟨ht, d, q, hs⟩
    obtain ⟨hp, hc⟩ := pos_of_severed hs.pos_eq
    exact ⟨⟨ht, d, q, hp, hs.depth, hs.index⟩,
      fun ho => hc ⟨ho, h.count_of_onTree hr hsev hp hs.depth ho⟩⟩
  · rintro ⟨⟨ht, d, q, hs⟩, hno⟩
    exact ⟨ht, d, q, (severed_of_not fun hc => hno hc.1).trans hs.pos_eq, hs.depth, hs.index⟩

omit h in
theorem restHeld_erase (hnd : live.Nodup) (hr : r ∈ live) (f : ℕ) :
    restHeld base (live.erase r) f + (if f = r then 1 else 0) = restHeld base live f := by
  unfold restHeld
  rcases eq_or_ne f r with rfl | hne
  · simp [hr, hnd.not_mem_erase]
  · simp [List.mem_erase_of_ne hne, hne]

open Classical in
/-- Without the tree, its frames have one reference less. -/
theorem count_severed {s' : Vm} (hr : r ∈ live) (hsev : Severable s 3 r) (hmem : s'.mem = s.mem)
    (ht : s'.pageMap.totalPages = s.pageMap.totalPages) (hlt : f < s.pageMap.totalPages) :
    count s' (severed s pos (count s pos (restHeld base live)) r) (restHeld base (live.erase r)) f +
      (if OnTree s pos r f then 1 else 0) = count s pos (restHeld base live) f := by
  have htarget : target s' = target s := by
    funext k
    rw [target, target, Vm.entry_congr (congrFun hmem k.1)]
  have hsplit :
      deg ((slots s.pageMap.totalPages pos).filter fun k => OnTree s pos r k.1) (target s) f +
        deg ((slots s.pageMap.totalPages pos).filter fun k => ¬ OnTree s pos r k.1) (target s) f =
      deg (slots s.pageMap.totalPages pos) (target s) f := deg_filter_add_deg_filter_not _
  rw [count, count, ht, htarget, h.slots_severed hr hsev, ← restHeld_erase h.nodup hr f]
  rcases hp : pos f with _ | ⟨d, q⟩
  · have hno : ¬ OnTree s pos r f := by
      rintro ⟨d, q, hp', -⟩
      simp [hp] at hp'
    have hne : f ≠ r := by
      rintro rfl
      exact hno (h.onTree_root hr)
    have hz := h.deg_eq_zero hlt hp
    rw [if_neg hno, if_neg hne]
    omega
  · rw [h.deg_onTree hr hsev hp] at hsplit
    rcases Nat.eq_zero_or_pos d with rfl | hd
    · have hiff : OnTree s pos r f ↔ f = r := by
        constructor
        · intro ho
          exact (Option.some.inj (h.frameAt_of_onTree hp ho _ (prefixAt_pageAt 0 q))).symm
        · rintro rfl
          exact h.onTree_root hr
      simp only [ne_eq, not_true_eq_false, and_false, if_false] at hsplit
      simp only [hiff]
      omega
    · have hne : f ≠ r := by
        rintro rfl
        rw [h.root.mpr ⟨hr, rfl⟩] at hp
        cases hp
        exact lt_irrefl 0 hd
      simp only [ne_eq, hd.ne', not_false_eq_true, and_true] at hsplit
      simp only [hne, if_false]
      omega

theorem not_onTree_of_sole (hr : r ∈ live) (hsev : Severable s 3 r) (hs : Slot pos t i d q)
    (hno : ¬ OnTree s pos r t) (hp : present (s.entry t i) = true)
    (hsh : shared (s.entry t i) = false) (hlt : ppn (s.entry t i) < s.pageMap.totalPages)
    (hone : count s pos (restHeld base live) (ppn (s.entry t i)) = 1) :
    ¬ OnTree s pos r (ppn (s.entry t i)) := by
  intro ho
  obtain ⟨t', i', q', hs', ho', hp', hppn⟩ :=
    h.exists_slot_of_onTree hr ((h.entries hs hp).child hsh hlt) ho
  have hsv := (hsev.table (h.pageAt_lt hs'.pos_eq) (by have := hs'.depth; omega)
    (h.frameAt_of_onTree hs'.pos_eq ho' _ (prefixAt_pageAt d q'))).1
  have hsh' := (h.counted_of_severable hs' hsv hp' (hppn ▸ hlt)).1
  have hkey := eq_of_deg_le_one (le_trans (Nat.le_add_right _ _) hone.le) (h.slot_mem hs)
    (h.slot_mem hs') (target_eq_some_iff.mpr ⟨⟨hp, hsh⟩, rfl⟩)
    (target_eq_some_iff.mpr ⟨⟨hp', hsh'⟩, hppn⟩)
  obtain ⟨rfl, -⟩ := Prod.mk.inj hkey
  exact hno ho'

open Classical in
/-- Taking one reference from every frame of a severable tree takes the address space away. -/
theorem sever {s' : Vm} (hr : r ∈ live) (hsev : Severable s 3 r) (hmem : s'.mem = s.mem)
    (ht : s'.pageMap.totalPages = s.pageMap.totalPages)
    (hcounter : ∀ f < s.pageMap.totalPages, (s'.pageMap.pagemap f).toNat =
      (s.pageMap.pagemap f).toNat - if OnTree s pos r f then 1 else 0) :
    Settled base s' (live.erase r) (severed s pos (count s pos (restHeld base live)) r) := by
  have hcount := fun f (hlt : f < s.pageMap.totalPages) => h.count_severed hr hsev hmem ht hlt
  have hroot := h.root.mpr ⟨hr, rfl⟩
  refine ⟨⟨?_, ?_, ?_, ?_, ?_⟩, h.nodup.erase r, lt_of_le_of_lt List.length_erase_le h.few,
    h.base_lt, fun hp => h.base_pos (pos_of_severed hp).1⟩
  case refine_1 =>
    intro f d q hp
    rw [ht]
    exact h.bounded (pos_of_severed hp).1
  case refine_2 =>
    intro f q
    rw [h.nodup.mem_erase_iff]
    constructor
    · intro hp
      obtain ⟨hp, hc⟩ := pos_of_severed hp
      obtain ⟨hf, rfl⟩ := h.root.mp hp
      refine ⟨⟨?_, hf⟩, rfl⟩
      rintro rfl
      have ho := h.onTree_root hr
      exact hc ⟨ho, h.count_of_onTree hr hsev hroot (by decide) ho⟩
    · rintro ⟨⟨hne, hf⟩, rfl⟩
      have hp := h.root.mpr ⟨hf, rfl⟩
      refine (severed_of_not fun hc => hne ?_).trans hp
      exact (Option.some.inj (h.frameAt_of_onTree hp hc.1 _ (prefixAt_pageAt 0 0))).symm
  case refine_3 =>
    intro t i d q hs hpres
    obtain ⟨hp, hc⟩ := pos_of_severed hs.pos_eq
    have hst : Slot pos t i d q := ⟨hp, hs.depth, hs.index⟩
    have hno : ¬ OnTree s pos r t :=
      fun ho => hc ⟨ho, h.count_of_onTree hr hsev hp hs.depth ho⟩
    rw [Vm.entry_congr (congrFun hmem t)] at hpres ⊢
    have hok := h.entries hst hpres
    have hout := fun hsh hlt => h.not_onTree_of_sole hr hsev hst hno hpres hsh hlt
    rw [ht]
    refine ⟨fun hsh hlt => ?_, fun hsh hlt => ?_, hok.upper, fun hw hsh hlt => ?_⟩
    · exact (severed_of_not fun hc => hout hsh hlt hc.2 hc.1).trans (hok.child hsh hlt)
    · obtain ⟨hnone, hpos⟩ := hok.device hsh hlt
      have hno' : ¬ OnTree s pos r (ppn (s.entry t i)) := by
        rintro ⟨d', q', hp', -⟩
        simp [hnone] at hp'
      have hc' := hcount _ hlt
      rw [if_neg hno', Nat.add_zero] at hc'
      exact ⟨(severed_of_not fun hc => hno' hc.1).trans hnone, hc' ▸ hpos⟩
    · have hone := hok.owned hw hsh hlt
      have hc' := hcount _ hlt
      rw [if_neg (hout hsh hlt hone), Nat.add_zero] at hc'
      exact hc'.trans hone
  case refine_4 =>
    intro f hlt
    rw [ht] at hlt
    rw [← UInt8.ofNat_toNat (x := s'.pageMap.pagemap f), hcounter f hlt, h.counter_eq hlt,
      ← hcount f hlt, Nat.add_sub_cancel]
  case refine_5 =>
    intro f p hp
    obtain ⟨hp, hc⟩ := pos_of_severed hp
    have h₁ := hcount f (h.bounded hp).1
    have h₂ := h.used hp
    by_cases ho : OnTree s pos r f
    · have h₃ : count s pos (restHeld base live) f ≠ 1 := fun he => hc ⟨ho, he⟩
      rw [if_pos ho] at h₁
      omega
    · rw [if_neg ho] at h₁
      omega

theorem destroy (hr : r ∈ live) (hsev : Severable s 3 r) :
    ∃ s' pos', AddrSpace.destroy r s = some s' ∧
      s'.pageMap.totalPages = s.pageMap.totalPages ∧ Settled base s' (live.erase r) pos' := by
  classical
  have hle : ∀ f < s.pageMap.totalPages,
      (released s 4 r ++ [r]).count f ≤ (s.pageMap.pagemap f).toNat := by
    intro f hlt
    rw [h.counter_eq hlt, h.count_freed hr hsev hlt, ← h.count_severed hr hsev rfl rfl hlt]
    exact Nat.le_add_left _ _
  obtain ⟨m, hm, ht, hcounter⟩ := PageMap.foldlM_free hle
  refine ⟨{ s with pageMap := m }, _, by rw [destroy_eq, hm]; rfl, ht,
    h.sever hr hsev rfl ht fun f hlt => ?_⟩
  rw [hcounter f hlt, h.count_freed hr hsev hlt]

theorem counter_ne_zero_of_frameAt (hr : r ∈ live) (hv : virt < userPages) (hd : d ≤ 4)
    (hf : frameAt s r virt d = some f) (hlt : f < s.pageMap.totalPages) :
    s.pageMap.pagemap f ≠ 0 := by
  intro hz
  obtain ⟨hnone, hbase⟩ := h.pos_none_of_free hlt hz
  rcases Nat.lt_or_ge d 4 with hd₄ | hd₄
  · simpa [hnone] using (h.frameAt_slot hr hv hd₄ hf).pos_eq
  obtain rfl : d = 4 := by omega
  obtain ⟨t, ht, hp, rfl⟩ := frameAt_succ_eq_some_iff.mp hf
  have hok := h.entries (h.frameAt_slot hr hv (by decide) ht) hp
  rcases hsh : shared (s.entry t (tableIndex (3 - 3) virt)) with _ | _
  · rw [hok.child hsh hlt] at hnone
    cases hnone
  · have hpos := (hok.device hsh hlt).2
    rw [← h.counter_eq hlt, hz] at hpos
    exact lt_irrefl 0 hpos

end Settled

end AddrSpace

end Koerix
