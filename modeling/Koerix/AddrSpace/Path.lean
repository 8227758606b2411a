import Koerix.AddrSpace.Basic
import Mathlib.Algebra.Order.Ring.Nat
import Mathlib.Tactic.Ring
import Mathlib.Tactic.IntervalCases

/-! # Paths through the tables

The frames and entries that a virtual page number selects, counted by depth:
the PML4 is at depth 0, a payload page at depth 4. A frame at depth `d` serves
all virtual pages that agree in the part of the page number above its own
`4 - d` indices.
-/

namespace Koerix

open GenericPagingTable

/-- The part of a virtual page number that selects the frame at depth `d`. -/
def prefixAt (d virt : ℕ) : ℕ := virt / 512 ^ (4 - d)

/-- Number of virtual pages in the lower half. -/
def userPages : ℕ := 2 ^ 35

theorem tableIndex_eq (level virt : ℕ) : tableIndex level virt = virt / 512 ^ level % 512 := by
  have h : (0x1ff : ℕ) = 2 ^ 9 - 1 := rfl
  rw [tableIndex, h, Nat.and_two_pow_sub_one_eq_mod, Nat.shiftRight_eq_div_pow, pow_mul]
  norm_num

theorem tableIndex_lt (level virt : ℕ) : tableIndex level virt < 512 := by
  rw [tableIndex_eq]
  exact Nat.mod_lt _ (by decide)

theorem tableIndex_lt_entryCount {d virt : ℕ} (hv : virt < userPages) :
    tableIndex (3 - d) virt < entryCount (3 - d) := by
  unfold entryCount
  split_ifs with h
  · rw [h, tableIndex_eq]
    unfold userPages at hv
    omega
  · exact tableIndex_lt _ _

theorem prefixAt_succ {d : ℕ} (hd : d < 4) (virt : ℕ) :
    prefixAt (d + 1) virt = 512 * prefixAt d virt + tableIndex (3 - d) virt := by
  have hp : 512 ^ (4 - d) = 512 ^ (3 - d) * 512 := by
    rw [show 4 - d = 3 - d + 1 by omega, pow_succ]
  rw [tableIndex_eq, prefixAt, prefixAt, hp, ← Nat.div_div_eq_div_mul,
    show 4 - (d + 1) = 3 - d by omega]
  exact (Nat.div_add_mod _ _).symm

theorem prefixAt_zero {virt : ℕ} (hv : virt < userPages) : prefixAt 0 virt = 0 := by
  unfold prefixAt userPages at *
  omega

@[simp] theorem prefixAt_four (virt : ℕ) : prefixAt 4 virt = virt := by simp [prefixAt]

/-- The first virtual page served by the frame at depth `d` with prefix `q`. -/
def pageAt (d q : ℕ) : ℕ := q * 512 ^ (4 - d)

theorem prefixAt_pageAt (d q : ℕ) : prefixAt d (pageAt d q) = q :=
  Nat.mul_div_cancel q (Nat.pow_pos (by decide))

theorem prefixAt_eq_of_le {d k v w : ℕ} (hk : k ≤ d) (hd : d ≤ 4)
    (h : prefixAt d v = prefixAt d w) : prefixAt k v = prefixAt k w := by
  have hp : ∀ u, prefixAt k u = prefixAt d u / 512 ^ (d - k) := by
    intro u
    rw [prefixAt, prefixAt, Nat.div_div_eq_div_mul, ← pow_add,
      show 4 - d + (d - k) = 4 - k by omega]
  rw [hp, hp, h]

theorem tableIndex_eq_of_prefixAt_eq {d v w : ℕ} (hd : d < 4)
    (h : prefixAt (d + 1) v = prefixAt (d + 1) w) :
    tableIndex (3 - d) v = tableIndex (3 - d) w := by
  have h₀ := prefixAt_eq_of_le (Nat.le_succ d) (by omega) h
  rw [prefixAt_succ hd, prefixAt_succ hd] at h
  omega

namespace AddrSpace

/-- The frame at depth `d` on the path of `virt`, if all entries above it are present. -/
def frameAt (s : Vm) (pml4 virt : ℕ) : ℕ → Option ℕ
  | 0 => some pml4
  | d + 1 => (frameAt s pml4 virt d).bind fun t =>
      let e := s.entry t (tableIndex (3 - d) virt)
      if present e then some (ppn e) else none

/-- The present entry in the table at depth `d` on the path of `virt`. -/
def entryAt (s : Vm) (pml4 virt d : ℕ) : Option GenericPagingTable :=
  (frameAt s pml4 virt d).bind fun t =>
    let e := s.entry t (tableIndex (3 - d) virt)
    if present e then some e else none

variable {s s' : Vm} {pml4 virt d : ℕ}

theorem frameAt_succ : frameAt s pml4 virt (d + 1) = (entryAt s pml4 virt d).map ppn := by
  unfold entryAt
  rw [frameAt]
  cases frameAt s pml4 virt d with
  | none => rfl
  | some t => simp only [Option.bind_some]; split_ifs <;> rfl

theorem entryAt_eq_some_iff {e : GenericPagingTable} : entryAt s pml4 virt d = some e ↔
    ∃ t, frameAt s pml4 virt d = some t ∧ s.entry t (tableIndex (3 - d) virt) = e ∧
      present e = true := by
  simp only [entryAt, Option.bind_eq_some_iff, Option.ite_none_right_eq_some, Option.some.injEq]
  constructor
  · rintro ⟨t, ht, hp, rfl⟩
    exact ⟨t, ht, rfl, hp⟩
  · rintro ⟨t, ht, rfl, hp⟩
    exact ⟨t, ht, hp, rfl⟩

theorem frameAt_succ_eq_some_iff {x : ℕ} : frameAt s pml4 virt (d + 1) = some x ↔
    ∃ t, frameAt s pml4 virt d = some t ∧
      present (s.entry t (tableIndex (3 - d) virt)) = true ∧
      ppn (s.entry t (tableIndex (3 - d) virt)) = x := by
  rw [frameAt_succ, Option.map_eq_some_iff]
  constructor
  · rintro ⟨e, he, rfl⟩
    obtain ⟨t, ht, rfl, hp⟩ := entryAt_eq_some_iff.mp he
    exact ⟨t, ht, hp, rfl⟩
  · rintro ⟨t, ht, hp, rfl⟩
    exact ⟨_, entryAt_eq_some_iff.mpr ⟨t, ht, rfl, hp⟩, rfl⟩

theorem frameAt_congr_prefixAt {w : ℕ} (hd : d ≤ 4) (h : prefixAt d virt = prefixAt d w) :
    frameAt s pml4 virt d = frameAt s pml4 w d := by
  induction d with
  | zero => rfl
  | succ d ih =>
    have hi := tableIndex_eq_of_prefixAt_eq (by omega) h
    rw [frameAt, frameAt, ih (by omega) (prefixAt_eq_of_le (Nat.le_succ d) hd h), hi]

theorem walkFrom_eq_entryAt {level t : ℕ} (hl : d + level = 3)
    (ht : frameAt s pml4 virt d = some t) :
    walkFrom s virt level t =
      (List.range' d (level + 1)).mapM (fun k => entryAt s pml4 virt k) := by
  have he : entryAt s pml4 virt d =
      if present (s.entry t (tableIndex level virt)) then some (s.entry t (tableIndex level virt))
      else none := by
    rw [entryAt, ht, Option.bind_some, show 3 - d = level by omega]
  induction level generalizing d t with
  | zero =>
    rw [Nat.zero_add, List.range'_one, List.mapM_cons, List.mapM_nil, he, walkFrom]
    split_ifs <;> rfl
  | succ level ih =>
    rw [List.range'_succ, List.mapM_cons, walkFrom, he]
    split_ifs with hp
    · have ht' : frameAt s pml4 virt (d + 1) =
          some (ppn (s.entry t (tableIndex (level + 1) virt))) :=
        frameAt_succ_eq_some_iff.mpr ⟨t, ht, by rwa [show 3 - d = level + 1 by omega],
          by rw [show 3 - d = level + 1 by omega]⟩
      rw [ih (by omega) ht' (by
        rw [entryAt, ht', Option.bind_some, show 3 - (d + 1) = level by omega])]
      simp only [Option.bind_eq_bind, Option.bind_some, Option.pure_def]
      exact Option.map_eq_bind
    · rfl

theorem walk_eq_entryAt : walk s pml4 virt =
    [0, 1, 2, 3].mapM (fun d => entryAt s pml4 virt d) :=
  walkFrom_eq_entryAt (d := 0) rfl rfl

theorem exists_entryAt_of_succ {e : GenericPagingTable} (h : entryAt s pml4 virt (d + 1) = some e) :
    ∃ e', entryAt s pml4 virt d = some e' := by
  obtain ⟨t, ht, -, -⟩ := entryAt_eq_some_iff.mp h
  rw [frameAt_succ, Option.map_eq_some_iff] at ht
  obtain ⟨e', he, -⟩ := ht
  exact ⟨e', he⟩

theorem walk_eq_some_iff {es : List GenericPagingTable} : walk s pml4 virt = some es ↔
    ∃ e₀ e₁ e₂ e₃, entryAt s pml4 virt 0 = some e₀ ∧ entryAt s pml4 virt 1 = some e₁ ∧
      entryAt s pml4 virt 2 = some e₂ ∧ entryAt s pml4 virt 3 = some e₃ ∧
      es = [e₀, e₁, e₂, e₃] := by
  rw [walk_eq_entryAt]
  simp only [List.mapM_cons, List.mapM_nil, Option.bind_eq_bind, Option.bind_eq_some_iff,
    Option.pure_def, Option.some.injEq, exists_eq_left']
  constructor
  · rintro ⟨e₀, h₀, _, ⟨e₁, h₁, _, ⟨e₂, h₂, _, ⟨e₃, h₃, rfl⟩, rfl⟩, rfl⟩, rfl⟩
    exact ⟨e₀, e₁, e₂, e₃, h₀, h₁, h₂, h₃, rfl⟩
  · rintro ⟨e₀, e₁, e₂, e₃, h₀, h₁, h₂, h₃, rfl⟩
    exact ⟨e₀, h₀, _, ⟨e₁, h₁, _, ⟨e₂, h₂, _, ⟨e₃, h₃, rfl⟩, rfl⟩, rfl⟩, rfl⟩

theorem mem_of_walk {es : List GenericPagingTable} {e : GenericPagingTable}
    (h : walk s pml4 virt = some es) (hd : d < 4) (he : entryAt s pml4 virt d = some e) :
    e ∈ es := by
  obtain ⟨e₀, e₁, e₂, e₃, h₀, h₁, h₂, h₃, rfl⟩ := walk_eq_some_iff.mp h
  interval_cases d <;> simp_all

theorem frameAt_four {es : List GenericPagingTable} (h : walk s pml4 virt = some es) :
    frameAt s pml4 virt 4 = some (ppn (es.getLastD 0)) := by
  obtain ⟨e₀, e₁, e₂, e₃, -, -, -, h₃, rfl⟩ := walk_eq_some_iff.mp h
  rw [frameAt_succ, h₃]
  rfl

theorem exists_walk {e : GenericPagingTable} (h : entryAt s pml4 virt 3 = some e) :
    ∃ e₀ e₁ e₂, walk s pml4 virt = some [e₀, e₁, e₂, e] := by
  obtain ⟨e₂, h₂⟩ := exists_entryAt_of_succ h
  obtain ⟨e₁, h₁⟩ := exists_entryAt_of_succ h₂
  obtain ⟨e₀, h₀⟩ := exists_entryAt_of_succ h₁
  exact ⟨e₀, e₁, e₂, walk_eq_some_iff.mpr ⟨e₀, e₁, e₂, e, h₀, h₁, h₂, h, rfl⟩⟩

theorem frameAt_congr (h : ∀ k < d, ∀ t, frameAt s pml4 virt k = some t →
    present (s'.entry t (tableIndex (3 - k) virt)) =
      present (s.entry t (tableIndex (3 - k) virt)) ∧
    (present (s.entry t (tableIndex (3 - k) virt)) = true →
      ppn (s'.entry t (tableIndex (3 - k) virt)) = ppn (s.entry t (tableIndex (3 - k) virt)))) :
    frameAt s' pml4 virt d = frameAt s pml4 virt d := by
  induction d with
  | zero => rfl
  | succ d ih =>
    rw [frameAt, frameAt, ih fun k hk => h k (by omega)]
    cases ht : frameAt s pml4 virt d with
    | none => rfl
    | some t =>
      obtain ⟨hp, hn⟩ := h d (Nat.lt_succ_self d) t ht
      simp only [Option.bind_some, hp]
      split_ifs with hpres
      · rw [hn hpres]
      · rfl

theorem entryAt_congr (h : ∀ k ≤ d, ∀ t, frameAt s pml4 virt k = some t →
    s'.entry t (tableIndex (3 - k) virt) = s.entry t (tableIndex (3 - k) virt)) :
    entryAt s' pml4 virt d = entryAt s pml4 virt d := by
  have hframe : frameAt s' pml4 virt d = frameAt s pml4 virt d := by
    refine frameAt_congr fun k hk t ht => ?_
    rw [h k hk.le t ht]
    exact ⟨rfl, fun _ => rfl⟩
  unfold entryAt
  rw [hframe]
  cases ht : frameAt s pml4 virt d with
  | none => rfl
  | some t => simp only [Option.bind_some, h d le_rfl t ht]

theorem walk_congr (h : ∀ k < 4, ∀ t, frameAt s pml4 virt k = some t →
    s'.entry t (tableIndex (3 - k) virt) = s.entry t (tableIndex (3 - k) virt)) :
    walk s' pml4 virt = walk s pml4 virt := by
  have he : ∀ d < 4, entryAt s' pml4 virt d = entryAt s pml4 virt d :=
    fun d hd => entryAt_congr fun k hk => h k (by omega)
  rw [walk_eq_entryAt, walk_eq_entryAt]
  simp only [List.mapM_cons, List.mapM_nil, he 0 (by decide), he 1 (by decide), he 2 (by decide),
    he 3 (by decide)]

theorem exists_frameAt_of_le {k t : ℕ} (h : frameAt s pml4 virt d = some t) (hk : k ≤ d) :
    ∃ u, frameAt s pml4 virt k = some u := by
  induction hk generalizing t with
  | refl => exact ⟨t, h⟩
  | step _ ih =>
    obtain ⟨u, hu, -⟩ := frameAt_succ_eq_some_iff.mp h
    exact ih hu

theorem present_of_frameAt {k t u : ℕ} (h : frameAt s pml4 virt d = some t) (hk : k < d)
    (hu : frameAt s pml4 virt k = some u) :
    present (s.entry u (tableIndex (3 - k) virt)) = true := by
  obtain ⟨w, hw⟩ := exists_frameAt_of_le h (Nat.succ_le_of_lt hk)
  obtain ⟨u', hu', hp, -⟩ := frameAt_succ_eq_some_iff.mp hw
  rw [hu] at hu'
  cases hu'
  exact hp

/-- Every table below the PML4 on the path of `virt` has one reference. -/
def PathUnshared (s : Vm) (pml4 virt : ℕ) : Prop :=
  ∀ d, 0 < d → d ≤ 3 → ∀ t, frameAt s pml4 virt d = some t → s.pageMap.getRefs t = 1

theorem frameAt_eq_of_le {r r' k : ℕ} (h : frameAt s r' virt d = frameAt s r virt d)
    (hk : d ≤ k) : frameAt s r' virt k = frameAt s r virt k := by
  induction hk with
  | refl => exact h
  | step _ ih => rw [frameAt, frameAt, ih]

theorem exists_entryAt_of_walkFrom {level t : ℕ} {es : List GenericPagingTable}
    (hl : d + level = 3) (ht : frameAt s pml4 virt d = some t)
    (hw : walkFrom s virt level t = some es) : ∃ e, entryAt s pml4 virt 3 = some e := by
  induction level generalizing d t es with
  | zero =>
    obtain rfl : d = 3 := by omega
    rw [walkFrom] at hw
    split_ifs at hw with hp
    exact ⟨_, entryAt_eq_some_iff.mpr ⟨t, ht, rfl, hp⟩⟩
  | succ level ih =>
    rw [walkFrom] at hw
    split_ifs at hw with hp
    obtain ⟨es', hw', -⟩ := Option.map_eq_some_iff.mp hw
    refine ih (by omega) (frameAt_succ_eq_some_iff.mpr ⟨t, ht, ?_⟩) hw'
    rw [show 3 - d = level + 1 by omega]
    exact ⟨hp, rfl⟩

end AddrSpace

end Koerix
