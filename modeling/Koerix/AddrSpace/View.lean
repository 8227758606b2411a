import Koerix.AddrSpace.Update

/-! # What an address space shows

Two tables are alike when a walk from either one meets entries that agree in
everything but the frames they name and the write bit, and ends at equal
contents. Copy-on-write moves frames and write bits around; what a process
sees is the part that `Alike` keeps.
-/

namespace Koerix

open GenericPagingTable InDegree

namespace AddrSpace

/-- Entries that mean the same to the owner of the address space. -/
structure SameBits (e e' : GenericPagingTable) : Prop where
  present_eq : present e' = present e
  writable_eq : present e = true → writable e' = writable e
  user_eq : present e = true → user e' = user e
  noExec_eq : present e = true → noExec e' = noExec e
  cacheDisable_eq : present e = true → cacheDisable e' = cacheDisable e
  shared_eq : present e = true → shared e' = shared e

/-- The frames `f` and `f'`, `k` levels above the contents, show the same. -/
def Alike (s s' : Vm) : ℕ → ℕ → ℕ → Prop
  | 0, f, f' => s'.mem f' = s.mem f ∧ (s'.pageMap.totalPages ≤ f' ↔ s.pageMap.totalPages ≤ f)
  | level + 1, f, f' => ∀ i < entryCount level, SameBits (s.entry f i) (s'.entry f' i) ∧
      (present (s.entry f i) = true → Alike s s' level (ppn (s.entry f i)) (ppn (s'.entry f' i)))

/-- The first `w` entries of the table `n` repeat those of `c`. -/
def TableCopy (s s' : Vm) (w c n : ℕ) : Prop :=
  ∀ i < w, SameBits (s.entry c i) (s'.entry n i) ∧
    (present (s.entry c i) = true → ppn (s'.entry n i) = ppn (s.entry c i))

/-- The frame `n` is a copy of `c`, which an entry at depth `d` points to. -/
structure CopyOf (s s' : Vm) (d c n : ℕ) : Prop where
  page : d = 3 → s'.mem n = s.mem c ∧ (s'.pageMap.totalPages ≤ n ↔ s.pageMap.totalPages ≤ c)
  table : d < 3 → TableCopy s s' 512 c n

/-- A mapped page as its process sees it; a foreign page is outside the page map. -/
structure Page where
  writable : Bool
  user : Bool
  noExec : Bool
  cacheDisable : Bool
  shared : Bool
  foreign : Bool
  content : ℕ → BitVec 64

def pageOf (s : Vm) (path : List GenericPagingTable) : Page where
  writable := path.all writable
  user := path.all user
  noExec := path.any noExec
  cacheDisable := cacheDisable (path.getLastD 0)
  shared := shared (path.getLastD 0)
  foreign := s.pageMap.totalPages ≤ ppn (path.getLastD 0)
  content := s.mem (ppn (path.getLastD 0))

/-- The pages of an address space. -/
def view (s : Vm) (pml4 virt : ℕ) : Option Page := (walk s pml4 virt).map (pageOf s)

variable {s s' s'' : Vm} {live : List ℕ} {pos pos' pos'' : Positions} {held base : ℕ → ℕ}
  {f g f' g' t i d q n c k r virt level : ℕ} {e e' e'' : GenericPagingTable}

@[refl] theorem SameBits.refl (e : GenericPagingTable) : SameBits e e where
  present_eq := rfl
  writable_eq _ := rfl
  user_eq _ := rfl
  noExec_eq _ := rfl
  cacheDisable_eq _ := rfl
  shared_eq _ := rfl

theorem SameBits.trans (h : SameBits e e') (h' : SameBits e' e'') : SameBits e e'' where
  present_eq := h'.present_eq.trans h.present_eq
  writable_eq hp := (h'.writable_eq (h.present_eq.trans hp)).trans (h.writable_eq hp)
  user_eq hp := (h'.user_eq (h.present_eq.trans hp)).trans (h.user_eq hp)
  noExec_eq hp := (h'.noExec_eq (h.present_eq.trans hp)).trans (h.noExec_eq hp)
  cacheDisable_eq hp := (h'.cacheDisable_eq (h.present_eq.trans hp)).trans (h.cacheDisable_eq hp)
  shared_eq hp := (h'.shared_eq (h.present_eq.trans hp)).trans (h.shared_eq hp)

theorem sameBits_of_not_present (h : present e = false) (h' : present e' = false) :
    SameBits e e' where
  present_eq := h'.trans h.symm
  writable_eq hp := by simp [h] at hp
  user_eq hp := by simp [h] at hp
  noExec_eq hp := by simp [h] at hp
  cacheDisable_eq hp := by simp [h] at hp
  shared_eq hp := by simp [h] at hp

theorem Alike.trans (h : Alike s s' k f f') (h' : Alike s' s'' k f' g') : Alike s s'' k f g' := by
  induction k generalizing f f' g' with
  | zero => exact ⟨h'.1.trans h.1, h'.2.trans h.2⟩
  | succ k ih =>
    intro i hi
    obtain ⟨hb, hc⟩ := h i hi
    obtain ⟨hb', hc'⟩ := h' i hi
    exact ⟨hb.trans hb', fun hp => ih (hc hp) (hc' (hb.present_eq.trans hp))⟩

/-- If the entries keep their bits and each one still points to its old frame or to a copy of
it, and the contents stay, then every table shows what it showed before, and so does a copy
of a table. -/
theorem Shape.alike (h : Shape s live pos held)
    (htotal : s'.pageMap.totalPages = s.pageMap.totalPages)
    (hbits : ∀ t i d q, Slot pos t i d q → SameBits (s.entry t i) (s'.entry t i))
    (hppn : ∀ t i d q, Slot pos t i d q → present (s.entry t i) = true →
      ppn (s'.entry t i) = ppn (s.entry t i) ∨
        CopyOf s s' d (ppn (s.entry t i)) (ppn (s'.entry t i)))
    (hpage : ∀ t i q, Slot pos t i 3 q → present (s.entry t i) = true →
      s'.mem (ppn (s.entry t i)) = s.mem (ppn (s.entry t i)))
    (hk : d + k = 4) (hd : d < 4) (hf : pos f = some (d, q))
    (hf' : f' = f ∨ TableCopy s s' (entryCount (3 - d)) f f') : Alike s s' k f f' := by
  induction k generalizing d q f f' with
  | zero => omega
  | succ level ih =>
    intro i hi
    have hi' : i < entryCount (3 - d) := by rwa [show 3 - d = level by omega]
    have hs : Slot pos f i d q := ⟨hf, hd, hi'⟩
    have hchild : present (s.entry f i) = true → ∀ x, x = ppn (s.entry f i) ∨
        CopyOf s s' d (ppn (s.entry f i)) x → Alike s s' level (ppn (s.entry f i)) x := by
      intro hp x hx
      rcases Nat.lt_or_ge d 3 with h3 | h3
      · have hok := h.entries hs hp
        obtain ⟨hlt, hsh, -⟩ := hok.upper h3
        exact ih (by omega) (by omega) (hok.child hsh hlt)
          (hx.imp_right fun hc j hj => hc.table h3 j (lt_of_lt_of_le hj (entryCount_le _)))
      · obtain ⟨rfl, rfl⟩ : d = 3 ∧ level = 0 := by omega
        rcases hx with rfl | hc
        · exact ⟨hpage f i q hs hp, by rw [htotal]⟩
        · exact hc.page rfl
    rcases hf' with rfl | hc
    · exact ⟨hbits f' i d q hs, fun hp => hchild hp _ (hppn f' i d q hs hp)⟩
    · obtain ⟨hb, hn⟩ := hc i hi'
      exact ⟨hb, fun hp => hchild hp _ (Or.inl (hn hp))⟩

/-- Walks from alike tables meet entries with the same bits and end at the same contents. -/
theorem Alike.walkFrom (h : Alike s s' (level + 1) f f')
    (hi : ∀ k ≤ level, tableIndex k virt < entryCount k) :
    AddrSpace.walkFrom s virt level f = none ∧ AddrSpace.walkFrom s' virt level f' = none ∨
    ∃ es es', AddrSpace.walkFrom s virt level f = some es ∧
      AddrSpace.walkFrom s' virt level f' = some es' ∧ List.Forall₂ SameBits es es' ∧
      (∀ e ∈ es, present e = true) ∧
      ∀ a a', SameBits (es.getLastD a) (es'.getLastD a') ∧ present (es.getLastD a) = true ∧
        Alike s s' 0 (ppn (es.getLastD a)) (ppn (es'.getLastD a')) := by
  induction level generalizing f f' with
  | zero =>
    obtain ⟨hb, hc⟩ := h _ (hi 0 le_rfl)
    simp only [AddrSpace.walkFrom, hb.present_eq]
    by_cases hp : present (s.entry f (tableIndex 0 virt)) = true
    · refine Or.inr ⟨_, _, if_pos hp, if_pos hp, .cons hb .nil, by simpa using hp, fun a a' => ?_⟩
      simp only [List.getLastD_cons, List.getLastD_nil]
      exact ⟨hb, hp, hc hp⟩
    · exact Or.inl ⟨if_neg hp, if_neg hp⟩
  | succ level ih =>
    obtain ⟨hb, hc⟩ := h _ (hi (level + 1) le_rfl)
    simp only [AddrSpace.walkFrom, hb.present_eq]
    by_cases hp : present (s.entry f (tableIndex (level + 1) virt)) = true
    · simp only [if_pos hp]
      rcases ih (hc hp) fun k hk => hi k (by omega) with ⟨hn, hn'⟩ | ⟨es, es', he, he',
        hall, hpr, hl⟩
      · exact Or.inl (by simp [hn, hn'])
      · refine Or.inr ⟨_ :: es, _ :: es', by simp [he], by simp [he'], .cons hb hall, ?_, ?_⟩
        · rintro e (_ | ⟨_, hm⟩)
          · exact hp
          · exact hpr e hm
        · intro a a'
          simp only [List.getLastD_cons]
          exact hl _ _
    · exact Or.inl ⟨if_neg hp, if_neg hp⟩

theorem all_any_congr {p : GenericPagingTable → Bool} {es es' : List GenericPagingTable}
    (h : List.Forall₂ SameBits es es') (hpr : ∀ e ∈ es, present e = true)
    (hp : ∀ e e', SameBits e e' → present e = true → p e' = p e) :
    es'.all p = es.all p ∧ es'.any p = es.any p := by
  induction h with
  | nil => exact ⟨rfl, rfl⟩
  | cons hb _ ih =>
    obtain ⟨h₁, h₂⟩ := ih fun e he => hpr e (List.mem_cons_of_mem _ he)
    simp only [List.all_cons, List.any_cons, hp _ _ hb (hpr _ List.mem_cons_self), h₁, h₂,
      and_self]

theorem pageOf_congr {es es' : List GenericPagingTable} (h : List.Forall₂ SameBits es es')
    (hpr : ∀ e ∈ es, present e = true)
    (hlast : ∀ a a', SameBits (es.getLastD a) (es'.getLastD a') ∧
      present (es.getLastD a) = true ∧
      Alike s s' 0 (ppn (es.getLastD a)) (ppn (es'.getLastD a'))) :
    pageOf s' es' = pageOf s es := by
  have hall := fun p => all_any_congr (p := p) h hpr
  obtain ⟨hb, hp, hc⟩ := hlast 0 0
  simp only [pageOf, hc.1, hc.2, hb.cacheDisable_eq hp, hb.shared_eq hp,
    (hall writable fun _ _ hb => hb.writable_eq).1, (hall user fun _ _ hb => hb.user_eq).1,
    (hall noExec fun _ _ hb => hb.noExec_eq).2]

theorem Alike.view_eq (h : Alike s s' 4 r f') (hv : virt < userPages) :
    view s' f' virt = view s r virt := by
  have hi : ∀ k ≤ 3, tableIndex k virt < entryCount k := by
    intro k hk
    have := tableIndex_lt_entryCount (d := 3 - k) hv
    rwa [show 3 - (3 - k) = k by omega] at this
  unfold view walk
  rcases h.walkFrom hi with ⟨hn, hn'⟩ | ⟨es, es', he, he', hall, hpr, hlast⟩
  · rw [hn, hn']
    rfl
  · rw [he, he']
    exact congrArg some (pageOf_congr hall hpr hlast)

end AddrSpace

end Koerix
