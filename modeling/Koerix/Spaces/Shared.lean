import Koerix.AddrSpace.Shared
import Koerix.Spaces.Basic

/-! # Shared mappings across a family of address spaces

A page that is mapped with the shared flag should stay the same page in the
address space and in all its descendants. Forks and copy-on-write of the tables
above it do keep it. Copy-on-write of the page itself gives it away if the
counter of its frame is above one, as it is for frames reserved at boot.
-/

namespace Koerix

open GenericPagingTable AddrSpace

namespace Spaces

/-- The address space `a`, or one made after there were `n`. -/
def Kin (a n b : ℕ) : Prop := b = a ∨ n ≤ b

/-- A call that maps the page `virt` of the address space `a` with the shared flag. -/
def Call.Shares (a virt : ℕ) : Call → Prop
  | .map b v _ flags | .mapDevice b v _ flags => b = a ∧ v = virt ∧ flags.shared = true
  | _ => False

/-- Forks and copy-on-write of the address space `a` and its descendants. -/
def Familial (a n : ℕ) (_ : Spaces) : Call → Prop
  | .clone b => Kin a n b
  | .triggerCow b virt => Kin a n b ∧ virt < userPages
  | _ => False

/-- Those of them that neither overflow a counter nor copy the frame `g` as a page. -/
def Sparing (a n g : ℕ) (s : Spaces) : Call → Prop
  | .clone b => Kin a n b ∧ s.live.length + 1 < 256
  | .triggerCow b virt => Kin a n b ∧ virt < userPages ∧ ∀ r ∈ s.live[b]?, Spares s.vm r virt g
  | _ => False

/-- Since `s₁` the whole family of `a` has the page `virt` where the leaf entry `e` has it, with
the same write bit, and the counter of the frame has not changed. -/
def StaysShared (s₁ s : Spaces) (a virt : ℕ) (e : GenericPagingTable) : Prop :=
  (∀ b r, Kin a s₁.live.length b → s.live[b]? = some r →
    (translate s.vm r virt).map Translation.frame = some (ppn e) ∧
      (entryAt s.vm r virt 3).map write = some (write e)) ∧
  s.vm.pageMap.getRefs (ppn e) = s₁.vm.pageMap.getRefs (ppn e)

variable {vm₀ : Vm} {s₁ s s' : Spaces} {a b r virt : ℕ} {e : GenericPagingTable} {c : Call}

theorem step_eq_of_triggerCow {vm : Vm} {x : Bool} (hr : s.live[a]? = some r)
    (hc : AddrSpace.triggerCow r virt s.vm = some (x, vm)) :
    s.step (.triggerCow a virt) = some { s with vm } := by simp [step, hr, hc]

theorem Sparing.lawful {n g : ℕ} (h : Sparing a n g s c) : Lawful vm₀ s c := by
  cases c with
  | clone => exact h.2
  | triggerCow => exact h.2.1
  | _ => exact h.elim

/-- What the run has kept: the leaf entry in all of the family, and the counter. -/
structure FamilyInv (vm₀ : Vm) (s₁ : Spaces) (a virt : ℕ) (e : GenericPagingTable) (s : Spaces) :
    Prop where
  lawful : ∃ base pos, LawfulInv vm₀ s base pos
  length_le : s₁.live.length ≤ s.live.length
  member : a < s.live.length
  leaf : ∀ b r, Kin a s₁.live.length b → s.live[b]? = some r →
    entryAt s.vm r virt 3 = some e
  refs : s.vm.pageMap.getRefs (ppn e) = s₁.vm.pageMap.getRefs (ppn e)

theorem FamilyInv.root (h : FamilyInv vm₀ s₁ a virt e s) :
    ∃ r ∈ s.live, entryAt s.vm r virt 3 = some e :=
  ⟨_, List.getElem_mem h.member, h.leaf a _ (Or.inl rfl) (List.getElem?_eq_getElem h.member)⟩

theorem FamilyInv.clone (h : FamilyInv vm₀ s₁ a virt e s) (hsh : SharesFrame (ppn e) e)
    (hv : virt < userPages) (hok : Sparing a s₁.live.length (ppn e) s (.clone b))
    (hs : s.step (.clone b) = some s') : FamilyInv vm₀ s₁ a virt e s' := by
  obtain ⟨base, pos, hinv⟩ := h.lawful
  obtain ⟨base', pos', hinv'⟩ := hinv.step hok.lawful hs
  obtain ⟨r, n, vm, hr, hc, rfl⟩ := step_clone hs
  obtain ⟨hall, hnew, hrefs⟩ := hinv.settled.clone_keeps (List.mem_of_getElem? hr) hc
  constructor
  case lawful => exact ⟨base', pos', hinv'⟩
  case length_le => simpa using h.length_le.trans (Nat.le_succ _)
  case member => simpa using h.member.trans (Nat.lt_succ_self _)
  case leaf =>
    intro b' r' hkin hr'
    rcases Nat.lt_or_ge b' s.live.length with hlt | hge
    · rw [List.getElem?_append_left hlt] at hr'
      exact hall.entryAt hinv.settled.toShape (List.mem_of_getElem? hr') hv
        (h.leaf b' r' hkin hr') hsh.isShared
    · rw [List.getElem?_append_right hge] at hr'
      obtain rfl : r' = n := by simpa using List.mem_of_getElem? hr'
      exact hnew.entryAt hv (h.leaf b r hok.1 hr) hsh.isShared
  case refs =>
    obtain ⟨r₀, hr₀, he₀⟩ := h.root
    rw [← h.refs, Counters.getRefs, Counters.getRefs]
    have htotal : vm.pageMap.totalPages = s.vm.pageMap.totalPages :=
      hinv'.total.trans hinv.total.symm
    rw [htotal]
    split_ifs with hge
    · rfl
    · have hg : ppn e < s.vm.pageMap.totalPages := not_le.mp hge
      obtain ⟨hpos, hne⟩ := hinv.settled.pos_of_sharesFrame hr₀ hv he₀ hsh hg
      rw [hrefs _ hg hpos hne]

theorem FamilyInv.triggerCow {v : ℕ} (h : FamilyInv vm₀ s₁ a virt e s)
    (hsh : SharesFrame (ppn e) e) (hv : virt < userPages)
    (hok : Sparing a s₁.live.length (ppn e) s (.triggerCow b v))
    (hs : s.step (.triggerCow b v) = some s') : FamilyInv vm₀ s₁ a virt e s' := by
  obtain ⟨base, pos, hinv⟩ := h.lawful
  obtain ⟨base', pos', hinv'⟩ := hinv.step hok.lawful hs
  obtain ⟨r, x, vm, hr, hc, rfl⟩ := step_triggerCow hs
  obtain ⟨r₀, hr₀, he₀⟩ := h.root
  obtain ⟨hkeeps, hrefs⟩ := hinv.settled.triggerCow_keeps hr₀ hv he₀ hsh
    (List.mem_of_getElem? hr) hok.2.1 (hok.2.2 r hr) hc
  constructor
  case lawful => exact ⟨base', pos', hinv'⟩
  case length_le => exact h.length_le
  case member => exact h.member
  case leaf =>
    intro b' r' hkin hr'
    exact hkeeps.entryAt hinv.settled.toShape (List.mem_of_getElem? hr') hv
      (h.leaf b' r' hkin hr') hsh
  case refs => exact hrefs.trans h.refs

theorem FamilyInv.step (h : FamilyInv vm₀ s₁ a virt e s) (hsh : SharesFrame (ppn e) e)
    (hv : virt < userPages) (hok : Sparing a s₁.live.length (ppn e) s c)
    (hs : s.step c = some s') : FamilyInv vm₀ s₁ a virt e s' := by
  cases c with
  | clone b => exact h.clone hsh hv hok hs
  | triggerCow b v => exact h.triggerCow hsh hv hok hs
  | _ => exact hok.elim

theorem FamilyInv.staysShared (h : FamilyInv vm₀ s₁ a virt e s) : StaysShared s₁ s a virt e := by
  refine ⟨fun b r hkin hr => ?_, h.refs⟩
  have he := h.leaf b r hkin hr
  obtain ⟨e₀, e₁, e₂, hw⟩ := exists_walk he
  simp [AddrSpace.translate, translationOf, hw, he]

theorem LawfulInv.entryAt_of_shares {base : ℕ → ℕ} {pos : Positions} (h : LawfulInv vm₀ s base pos)
    (hok : Lawful vm₀ s c) (hc : c.Shares a virt) (hs : s.step c = some s') :
    virt < userPages ∧ s'.live = s.live ∧ ∃ r phys flags, s.live[a]? = some r ∧
      flags.shared = true ∧ entryAt s'.vm r virt 3 = some (ofPage phys flags) := by
  cases c with
  | map b v content flags =>
    obtain ⟨rfl, rfl, hf⟩ := hc
    obtain ⟨r, phys, vm₁, vm, hr, ha, hm, rfl⟩ := step_map hs
    obtain ⟨hpos, -, -, h₁⟩ := h.settled.alloc ha
    have h₂ : Settled (Function.update base phys 1) (vm₁.setFrame phys content) s.live pos :=
      h₁.setOutside rfl fun u hu => Vm.mem_setFrame_of_ne (by rintro rfl; exact hu hpos)
    exact ⟨hok, rfl, r, phys, flags, hr, hf, h₂.entryAt_map (List.mem_of_getElem? hr) hok hm⟩
  | mapDevice b v phys flags =>
    obtain ⟨rfl, rfl, hf⟩ := hc
    obtain ⟨r, vm, hr, hm, rfl⟩ := step_mapDevice hs
    exact ⟨hok.1, rfl, r, phys, flags, hr, hf,
      h.settled.entryAt_map (List.mem_of_getElem? hr) hok.1 hm⟩
  | _ => exact hc.elim

/-- A page mapped with the shared flag stays shared in every run of forks and copy-on-write
in which its frame, if the counter is above one, is not itself copied. -/
theorem stays_shared_of_sparing (vm : Vm) (s s₁ s₂ : Spaces) (c : Call) (a r virt : ℕ)
    (e : GenericPagingTable) (h : Run.Reachable step (Lawful vm) (initial vm) s)
    (hok : Lawful vm s c) (hc : c.Shares a virt) (hs : s.step c = some s₁)
    (hr : s₁.live[a]? = some r) (he : entryAt s₁.vm r virt 3 = some e)
    (hrun : Run.Reachable step (Sparing a s₁.live.length (ppn e)) s₁ s₂) :
    StaysShared s₁ s₂ a virt e := by
  obtain ⟨base, pos, hinv⟩ := LawfulInv.reachable h
  obtain ⟨hv, hlive, r', phys, flags, hr', hf, he'⟩ := hinv.entryAt_of_shares hok hc hs
  rw [hlive, hr'] at hr
  cases hr
  rw [he'] at he
  cases he
  have hsh : SharesFrame (ppn (ofPage phys flags)) (ofPage phys flags) := by
    simp [SharesFrame, hf]
  have hlt : a < s₁.live.length := by
    rw [hlive]
    exact (List.getElem?_eq_some_iff.mp hr').1
  have hstart : FamilyInv vm s₁ a virt (ofPage phys flags) s₁ := by
    refine ⟨hinv.step hok hs, le_rfl, hlt, fun b r' hkin hb => ?_, rfl⟩
    rcases hkin with rfl | hge
    · rw [hlive, hr'] at hb
      cases hb
      exact he'
    · rw [List.getElem?_eq_none hge] at hb
      cases hb
  have hend : FamilyInv vm s₁ a virt (ofPage phys flags) s₂ :=
    hrun.invariant hstart fun _ _ _ hP hok' hs' => hP.step hsh hv hok' hs'
  exact hend.staysShared

/-- A machine of 16 frames, the last of which is reserved at boot. -/
def reservedLast : Vm :=
  { blank 16 with
    pageMap := ⟨⟨16, 15, 15, 0, fun f => if f = 15 then 255 else 0⟩, (blank 16).pageMap.fits⟩ }

/-- The flags of the framebuffer mapping. -/
def deviceFlags : MapFlags := ⟨true, true, true, true, true⟩

def onlySpace : Spaces := ((initial reservedLast).step .create).get (by decide +kernel)

theorem reachable_onlySpace :
    Run.Reachable step (Lawful reservedLast) (initial reservedLast) onlySpace :=
  .step (i := .create) .init (by decide) (Option.some_get _).symm

/-- A frame outside the page map is mapped as page 7. -/
def withForeign : Spaces := (onlySpace.step (.mapDevice 0 7 20 deviceFlags)).get (by decide +kernel)

/-- The process writes to the page and forks. -/
def writtenForeign : Spaces := (withForeign.step (.triggerCow 0 7)).get (by decide +kernel)

def forkedForeign : Spaces := (writtenForeign.step (.clone 0)).get (by decide +kernel)

theorem stays_shared_of_sparing_foreign : forkedForeign.live.length = 2 ∧
    StaysShared withForeign forkedForeign 0 7 (ofPage 20 deviceFlags) := by
  have hrefs : withForeign.vm.pageMap.getRefs (ppn (ofPage 20 deviceFlags)) = 1 := by
    decide +kernel
  have hlen : writtenForeign.live.length = 1 := by decide +kernel
  refine ⟨by decide +kernel, ?_⟩
  refine stays_shared_of_sparing reservedLast onlySpace withForeign forkedForeign
    (.mapDevice 0 7 20 deviceFlags) 0 0 7 (ofPage 20 deviceFlags) reachable_onlySpace (by decide)
    ⟨rfl, rfl, rfl⟩ (Option.some_get _).symm (by decide +kernel) (by decide +kernel) ?_
  have hcow : Sparing 0 withForeign.live.length (ppn (ofPage 20 deviceFlags)) withForeign
      (.triggerCow 0 7) := ⟨Or.inl rfl, by decide, fun _ _ _ _ _ _ _ => hrefs.le⟩
  have hclone : Sparing 0 withForeign.live.length (ppn (ofPage 20 deviceFlags)) writtenForeign
      (.clone 0) := ⟨Or.inl rfl, by rw [hlen]; decide⟩
  exact .step (.step .init hcow (Option.some_get _).symm) hclone (Option.some_get _).symm

/-- The reserved frame is mapped as page 7, and the process forks. -/
def withReserved : Spaces :=
  (onlySpace.step (.mapDevice 0 7 15 deviceFlags)).get (by decide +kernel)

def forkedReserved : Spaces := (withReserved.step (.clone 0)).get (by decide +kernel)

theorem reachable_forkedReserved :
    Run.Reachable step (Lawful reservedLast) (initial reservedLast) forkedReserved := by
  have hlen : withReserved.live.length = 1 := by decide +kernel
  have hmap : onlySpace.step (.mapDevice 0 7 15 deviceFlags) = some withReserved :=
    (Option.some_get _).symm
  have hclone : withReserved.step (.clone 0) = some forkedReserved := (Option.some_get _).symm
  exact .step (.step reachable_onlySpace (by decide) hmap) (by rw [Lawful, hlen]; decide) hclone

theorem exists_triggerCow_forkedReserved : ∃ b vm e,
    AddrSpace.triggerCow 4 7 forkedReserved.vm = some (b, vm) ∧ entryAt vm 4 7 3 = some e ∧
      ppn e ≠ 15 := by
  have hlive : forkedReserved.live = [0, 4] := by decide +kernel
  have hmem : 4 ∈ forkedReserved.live := by simp [hlive]
  obtain ⟨base, pos, hinv⟩ := LawfulInv.reachable reachable_forkedReserved
  have h7 : 7 < userPages := by decide
  obtain ⟨b, vm, hcow⟩ := hinv.settled.exists_triggerCow hmem h7 (by decide +kernel)
  obtain ⟨e, he, hne⟩ := hinv.settled.triggerCow_copies (g := 15) (e := ofPage 15 deviceFlags)
    hmem (by decide) (by decide +kernel) ⟨by decide +kernel, by decide +kernel, by decide +kernel⟩
    (by decide +kernel) (by decide +kernel) hcow
  exact ⟨b, vm, e, hcow, he, hne⟩

/-- A write of the child to the reserved frame moves its page to a private copy. -/
theorem not_stays_shared : ¬ ∀ (vm : Vm) (s s₁ s₂ : Spaces) (c : Call) (a r virt : ℕ)
    (e : GenericPagingTable), Run.Reachable step (Lawful vm) (initial vm) s →
    Lawful vm s c → c.Shares a virt → s.step c = some s₁ → s₁.live[a]? = some r →
    entryAt s₁.vm r virt 3 = some e →
    Run.Reachable step (Familial a s₁.live.length) s₁ s₂ → StaysShared s₁ s₂ a virt e := by
  intro hall
  have hlen : withReserved.live.length = 1 := by decide +kernel
  have hlive : forkedReserved.live = [0, 4] := by decide +kernel
  have hmap : onlySpace.step (.mapDevice 0 7 15 deviceFlags) = some withReserved :=
    (Option.some_get _).symm
  have hclone : withReserved.step (.clone 0) = some forkedReserved := (Option.some_get _).symm
  obtain ⟨b, vm, e', hcow, he', hne⟩ := exists_triggerCow_forkedReserved
  have hstep := step_eq_of_triggerCow (a := 1) (by rw [hlive]; rfl) hcow
  have hforks : Familial 0 withReserved.live.length withReserved (.clone 0) := Or.inl rfl
  have hwrites : Familial 0 withReserved.live.length forkedReserved (.triggerCow 1 7) :=
    ⟨Or.inr hlen.le, by decide⟩
  have hrun : Run.Reachable step (Familial 0 withReserved.live.length) withReserved
      { forkedReserved with vm } := .step (.step .init hforks hclone) hwrites hstep
  have hstays := hall reservedLast onlySpace withReserved _ (.mapDevice 0 7 15 deviceFlags) 0 0 7
    (ofPage 15 deviceFlags) reachable_onlySpace (by decide) ⟨rfl, rfl, rfl⟩ hmap
    (by decide +kernel) (by decide +kernel)
    hrun
  obtain ⟨hframe, -⟩ := hstays.1 1 4 (Or.inr hlen.le) (by simp [hlive])
  obtain ⟨e₀, e₁, e₂, hw⟩ := exists_walk he'
  have hppn : ppn (ofPage 15 deviceFlags) = 15 := by decide +kernel
  rw [AddrSpace.translate, hw, hppn] at hframe
  exact hne (by simpa [translationOf] using hframe)

end Spaces

end Koerix
