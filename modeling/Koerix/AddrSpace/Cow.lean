import Koerix.AddrSpace.Unshare

/-! # Copy-on-write

`triggerCow` walks down a path and claims every entry on it. It succeeds exactly
on pages that may be written, and then all four entries are writable, which by
the shape means that nobody else refers to the frames below them. No address
space can tell that it happened.
-/

namespace Koerix

open GenericPagingTable InDegree

namespace AddrSpace

variable {s s' : Vm} {live : List ℕ} {pos pos' : Positions} {held base : ℕ → ℕ}
  {t i d q c r virt level : ℕ}

/-- Every page of a live address space holds a reference to its frame. -/
def AllCounted (s : Vm) (live : List ℕ) : Prop :=
  ∀ r ∈ live, ∀ virt < userPages, ∀ p, view s r virt = some p →
    p.shared = false ∧ p.foreign = false

namespace Reshaped

theorem trans {s'' : Vm} {pos'' : Positions} (h : Reshaped s s' pos pos')
    (h' : Reshaped s' s'' pos' pos'') : Reshaped s s'' pos pos'' where
  mono f p hf := h'.mono f p (h.mono f p hf)
  alike f d q hf hd := (h.alike f d q hf hd).trans (h'.alike f d q (h.mono f _ hf) hd)
  total := h'.total.trans h.total
  kernel := h'.kernel.trans h.kernel

theorem view_eq (hr : Reshaped s s' pos pos') (h : Shape s live pos held) (hl : r ∈ live)
    (hv : virt < userPages) : view s' r virt = view s r virt :=
  (hr.alike r 0 0 (h.root.mpr ⟨hl, rfl⟩) (by decide)).view_eq hv

theorem allCounted (hr : Reshaped s s' pos pos') (h : Shape s live pos held)
    (hn : AllCounted s live) : AllCounted s' live := by
  intro r hl virt hv p hp
  rw [hr.view_eq h hl hv] at hp
  exact hn r hl virt hv p hp

end Reshaped

theorem walkFrom_zero (s : Vm) (virt t : ℕ) : walkFrom s virt 0 t =
    if present (s.entry t (tableIndex 0 virt)) then some [s.entry t (tableIndex 0 virt)]
    else none := rfl

theorem walkFrom_succ (s : Vm) (virt level t : ℕ) : walkFrom s virt (level + 1) t =
    if present (s.entry t (tableIndex (level + 1) virt)) then
      (walkFrom s virt level (ppn (s.entry t (tableIndex (level + 1) virt)))).map
        (s.entry t (tableIndex (level + 1) virt) :: ·)
    else none := rfl

/-- The path from a table is complete and all its entries satisfy `p`. -/
def PathAll (p : GenericPagingTable → Bool) (s : Vm) (virt level t : ℕ) : Prop :=
  ∃ es, walkFrom s virt level t = some es ∧ es.all p = true

theorem pathAll_zero {p : GenericPagingTable → Bool} : PathAll p s virt 0 t ↔
    present (s.entry t (tableIndex 0 virt)) = true ∧ p (s.entry t (tableIndex 0 virt)) = true := by
  unfold PathAll
  rw [walkFrom_zero]
  split_ifs with hp <;> simp [hp]

theorem pathAll_succ {p : GenericPagingTable → Bool} : PathAll p s virt (level + 1) t ↔
    present (s.entry t (tableIndex (level + 1) virt)) = true ∧
      p (s.entry t (tableIndex (level + 1) virt)) = true ∧
      PathAll p s virt level (ppn (s.entry t (tableIndex (level + 1) virt))) := by
  unfold PathAll
  rw [walkFrom_succ]
  split_ifs with hp
  · simp only [Option.map_eq_some_iff, exists_exists_and_eq_and, List.all_cons, Bool.and_eq_true,
      hp, true_and]
    constructor
    · rintro ⟨es, he, hh, ht⟩
      exact ⟨hh, es, he, ht⟩
    · rintro ⟨hh, es, he, ht⟩
      exact ⟨es, he, hh, ht⟩
  · simp [hp]

theorem Alike.pathAll_writable (h : Alike s s' (level + 1) t c)
    (hi : ∀ k ≤ level, tableIndex k virt < entryCount k) :
    PathAll writable s' virt level c ↔ PathAll writable s virt level t := by
  unfold PathAll
  rcases h.walkFrom hi with ⟨hn, hn'⟩ | ⟨es, es', he, he', hall, hpr, -⟩
  · simp [hn, hn']
  · simp only [he, he', Option.some.injEq, exists_eq_left',
      (all_any_congr hall hpr fun _ _ hb => hb.writable_eq).1]

theorem triggerCowFrom_zero (virt t : ℕ) (s : Vm) : triggerCowFrom virt 0 t s =
    if present (s.entry t (tableIndex 0 virt)) = true ∧
        writable (s.entry t (tableIndex 0 virt)) = true then
      (claimEntry 0 t (tableIndex 0 virt) s).map (true, ·)
    else some (false, s) := by
  rw [triggerCowFrom]
  simp only [writable, Option.map_eq_bind]
  cases present (s.entry t (tableIndex 0 virt)) <;> cases write (s.entry t (tableIndex 0 virt)) <;>
    cases cowWasWritable (s.entry t (tableIndex 0 virt)) <;> rfl

theorem triggerCowFrom_succ (virt level t : ℕ) (s : Vm) : triggerCowFrom virt (level + 1) t s =
    if present (s.entry t (tableIndex (level + 1) virt)) = true then
      (claimEntry (level + 1) t (tableIndex (level + 1) virt) s).bind fun s' =>
        triggerCowFrom virt level (ppn (s'.entry t (tableIndex (level + 1) virt))) s'
    else some (false, s) := by
  rw [triggerCowFrom]
  cases present (s.entry t (tableIndex (level + 1) virt)) <;> rfl

theorem Slot.ne_of_depth {u j d' q' : ℕ} (h : Slot pos t i d q) (h' : Slot pos u j d' q')
    (hd : d' < d) : u ≠ t := by
  rintro rfl
  have := h'.pos_eq.symm.trans h.pos_eq
  simp only [Option.some.injEq, Prod.mk.injEq] at this
  omega

theorem tableIndex_lt_of_le (hv : virt < userPages) {k : ℕ} (hk : k ≤ 3) :
    tableIndex k virt < entryCount k := by
  have := tableIndex_lt_entryCount (d := 3 - k) hv
  rwa [show 3 - (3 - k) = k by omega] at this

namespace Settled

theorem counted_entry (h : Settled base s live pos) (hn : AllCounted s live)
    (hs : Slot pos t i d q) (hp : present (s.entry t i) = true) :
    shared (s.entry t i) = false ∧ ppn (s.entry t i) < s.pageMap.totalPages := by
  rcases Nat.lt_or_ge d 3 with hd | hd
  · obtain ⟨hlt, hsh, -⟩ := (h.entries hs hp).upper hd
    exact ⟨hsh, hlt⟩
  obtain rfl : d = 3 := by have := hs.depth; omega
  obtain ⟨r, hr, hf⟩ := h.exists_root hs.pos_eq
  have hi : i < 512 := hs.index
  have hq : prefixAt 3 (512 * q + i) = q := by unfold prefixAt; omega
  have hidx : tableIndex 0 (512 * q + i) = i := by rw [tableIndex_eq]; omega
  have he : entryAt s r (512 * q + i) 3 = some (s.entry t i) :=
    entryAt_eq_some_iff.mpr ⟨t, hf _ hq, by rw [Nat.sub_self, hidx], hp⟩
  obtain ⟨e₀, e₁, e₂, hw⟩ := exists_walk he
  obtain ⟨hsh, hfor⟩ := hn r hr _ (h.lt_userPages hs.pos_eq hq) _ (by rw [view, hw]; rfl)
  exact ⟨hsh, by simpa [pageOf] using hfor⟩

theorem frameAt_claimed (h : Settled base s live pos) (hr : r ∈ live) (hv : virt < userPages)
    (hd : d < 4) (ht : frameAt s r virt d = some t)
    (hc : Claimed s s' pos pos' t (tableIndex (3 - d) virt) d) :
    frameAt s' r virt d = some t ∧
      frameAt s' r virt (d + 1) = some (ppn (s'.entry t (tableIndex (3 - d) virt))) := by
  have hs := h.frameAt_slot hr hv hd ht
  have ht' : frameAt s' r virt d = some t := by
    rw [← ht]
    refine frameAt_congr fun k hk u hu => ?_
    have hsu := h.frameAt_slot hr hv (by omega) hu
    rw [hc.above u _ k _ hsu hk.le (Or.inl (hs.ne_of_depth hsu hk))]
    exact ⟨rfl, fun _ => rfl⟩
  exact ⟨ht', frameAt_succ_eq_some_iff.mpr ⟨t, ht', hc.present_eq, rfl⟩⟩

/-- What `triggerCow` does, from the table at depth `d` down. -/
theorem triggerCowFrom {b : Bool} (hl : d + level = 3) (h : Settled base s live pos)
    (hr : r ∈ live) (hv : virt < userPages) (ht : frameAt s r virt d = some t)
    (hc : AddrSpace.triggerCowFrom virt level t s = some (b, s')) :
    ∃ base' pos', Settled base' s' live pos' ∧ Reshaped s s' pos pos' ∧
      (∀ u j d' q', Slot pos u j d' q' → d' < d → s'.entry u j = s.entry u j) ∧
      (b = true ↔ PathAll writable s virt level t) ∧
      (b = true → PathAll write s' virt level t) ∧
      (∀ f, base f ≠ 0 → base' f ≠ 0) ∧ (AllCounted s live → base' = base) := by
  induction level generalizing d t s base pos with
  | zero =>
    obtain rfl : d = 3 := by omega
    have hs := h.frameAt_slot hr hv (by omega) ht
    rw [triggerCowFrom_zero] at hc
    rw [pathAll_zero]
    split_ifs at hc with hp
    · obtain ⟨s₁, hcl, he⟩ := Option.map_eq_some_iff.mp hc
      cases he
      obtain ⟨base', pos', hset, hclaim, hkeep, hbase⟩ := h.claimEntry hs hp.1 hp.2 hcl
      refine ⟨base', pos', hset, hclaim.toReshaped, ?_, by simp [hp], ?_, hkeep, ?_⟩
      · intro u j d' q' hu hd
        exact hclaim.above u j d' q' hu (by omega) (Or.inl (hs.ne_of_depth hu hd))
      · exact fun _ => pathAll_zero.mpr ⟨hclaim.present_eq, hclaim.write_eq⟩
      · exact fun hn => hbase (h.counted_entry hn hs hp.1).1
    · cases hc
      exact ⟨base, pos, h, h.reshaped_self, fun _ _ _ _ _ _ => rfl, by simpa using hp, by simp,
        fun _ => id, fun _ => rfl⟩
  | succ level ih =>
    have hs := h.frameAt_slot hr hv (by omega) ht
    rw [show 3 - d = level + 1 by omega] at hs
    rw [triggerCowFrom_succ] at hc
    split_ifs at hc with hp
    · obtain ⟨s₁, hcl, hrec⟩ := Option.bind_eq_some_iff.mp hc
      obtain ⟨-, hsh, hw, -⟩ := (h.entries hs hp).upper (by omega)
      obtain ⟨base₁, pos₁, h₁, hclaim, hkeep, hbase⟩ :=
        h.claimEntry hs hp hw (by rwa [show 3 - d = level + 1 by omega])
      have hpath := h.frameAt_claimed hr hv (by omega) ht (by rwa [show 3 - d = level + 1 by omega])
      rw [show 3 - d = level + 1 by omega] at hpath
      obtain ⟨ht₁, hchild⟩ := hpath
      obtain ⟨base', pos', hset, hresh, habove, hiff, hwrite, hkeep', hbase'⟩ :=
        ih (by omega) h₁ hchild hrec
      have hslot₁ := h₁.frameAt_slot hr hv (by omega) ht₁
      rw [show 3 - d = level + 1 by omega] at hslot₁
      have hentry : s'.entry t (tableIndex (level + 1) virt) =
          s₁.entry t (tableIndex (level + 1) virt) := habove t _ d _ hslot₁ (by omega)
      refine ⟨base', pos', hset, hclaim.toReshaped.trans hresh, ?_, ?_, ?_,
        fun f hf => hkeep' f (hkeep f hf), ?_⟩
      · intro u j d' q' hu hd
        have hu₁ : Slot pos₁ u j d' q' := ⟨hclaim.mono u _ hu.pos_eq, hu.depth, hu.index⟩
        rw [habove u j d' q' hu₁ (by omega)]
        exact hclaim.above u j d' q' hu hd.le (Or.inl (hs.ne_of_depth hu hd))
      · have halike := hclaim.alike t d _ hs.pos_eq hs.depth
        rw [show 4 - d = level + 1 + 1 by omega] at halike
        rw [hiff, ← halike.pathAll_writable fun k hk => tableIndex_lt_of_le hv (by omega),
          pathAll_succ, hclaim.present_eq]
        have hw₁ := (h₁.entries hslot₁ hclaim.present_eq).upper (by omega)
        simp [hw₁.2.2.1]
      · intro hb
        rw [pathAll_succ, hentry]
        exact ⟨hclaim.present_eq, hclaim.write_eq, hwrite hb⟩
      · intro hn
        rw [hbase' (hclaim.allCounted h.toShape hn), hbase hsh]
    · cases hc
      refine ⟨base, pos, h, h.reshaped_self, fun _ _ _ _ _ _ => rfl, ?_, by simp, fun _ => id,
        fun _ => rfl⟩
      rw [pathAll_succ]
      simp [hp]

/-- What `triggerCow` does: it succeeds exactly on pages that may be written, makes all four
entries on the path writable, and is invisible otherwise. -/
theorem triggerCow {b : Bool} (h : Settled base s live pos) (hr : r ∈ live)
    (hv : virt < userPages) (hc : AddrSpace.triggerCow r virt s = some (b, s')) :
    ∃ base' pos', Settled base' s' live pos' ∧ Reshaped s s' pos pos' ∧
      (b = true ↔ ∃ p, view s r virt = some p ∧ p.writable = true) ∧
      (b = true → PathAll write s' virt 3 r) ∧
      (∀ f, base f ≠ 0 → base' f ≠ 0) ∧ (AllCounted s live → base' = base) := by
  obtain ⟨base', pos', hset, hresh, -, hiff, hwrite, hkeep, hbase⟩ :=
    h.triggerCowFrom (d := 0) rfl hr hv rfl hc
  refine ⟨base', pos', hset, hresh, hiff.trans ?_, hwrite, hkeep, hbase⟩
  unfold PathAll view walk
  constructor
  · rintro ⟨es, he, hw⟩
    exact ⟨_, by rw [he]; rfl, hw⟩
  · rintro ⟨p, hp, hw⟩
    obtain ⟨es, he, rfl⟩ := Option.map_eq_some_iff.mp hp
    exact ⟨es, he, hw⟩

end Settled

end AddrSpace

end Koerix
