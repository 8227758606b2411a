import Koerix.AddrSpace.Frames
import Koerix.Proc.Basic
import Koerix.Proc.Loader
import Koerix.Proc.StackAddr

/-! # Page faults

The handler looks at the address and at the flags of the fault, but not at the permissions of
the page, and what `triggerCow` reports is thrown away. It returns to an access that is still
forbidden when the page may not be written, or is mapped with other permissions than the
access needs; and it maps a page that is there already when the page may not be read or
executed.
-/

namespace Koerix

open GenericPagingTable AddrSpace

/-- What user code does at an address. -/
inductive UserAccess
  | read
  | write
  | fetch
  deriving DecidableEq

/-- `FaultFlags`. -/
structure FaultFlags where
  present : Bool
  write : Bool
  user : Bool
  reserved : Bool
  code : Bool

/-- The page of an address. -/
def pageNumber (addr : UInt64) : ℕ := (addr >>> 12).toNat

/-- What the processor lets user code do with a page. -/
def UserAccess.allowed (a : UserAccess) (t : Translation) : Bool :=
  t.user && (a != .write || t.write) && (a != .fetch || !t.noExec)

/-- The processor lets user code access the address. -/
def Permits (s : Vm) (pml4 : ℕ) (addr : UInt64) (a : UserAccess) : Prop :=
  ∃ t, translate s pml4 (pageNumber addr) = some t ∧ a.allowed t = true

/-- The flags that the processor pushes when user code may not access the address. -/
def faultFlags (s : Vm) (pml4 : ℕ) (addr : UInt64) (a : UserAccess) : FaultFlags where
  present := (walk s pml4 (pageNumber addr)).isSome
  write := a == .write
  user := true
  reserved := false
  code := a == .fetch

/-- The parts of a process that matter for its page faults: `m_addrSpace`, `m_stackList`,
`m_loader` and `m_state`. -/
structure FaultProc where
  addrSpace : ℕ
  stackList : StackList
  loader : Loader
  state : ProcState

/-- The handler returns true, the current task ends, or the process is killed, whose tasks end
with it. -/
inductive FaultResult
  | resumed (s : Vm)
  | exited
  | killed

namespace FaultProc

/-- `MIN_LOAD_ADDR`. -/
def minLoadAddr : UInt64 := 0x100000

/-- `EXIT_ADDR`. -/
def exitAddr : UInt64 := 0xffff8000deadbeef

def checkIfValid (addr : UInt64) : Bool :=
  if addr < minLoadAddr then false
  else if addr.toNat ≥ userBreak then false
  else true

/-- `MAP_USER | MAP_WRITE | MAP_NOEXEC`. -/
def stackFlags : MapFlags where
  user := true
  write := true
  noexec := true
  shared := false
  nocache := false

def handlePageFault (p : FaultProc) (addr : UInt64) (flags : FaultFlags) (s : Vm) :
    Option FaultResult :=
  if flags.reserved then none
  else if addr = exitAddr ∧ flags.code then some .exited
  else if !checkIfValid addr then some .killed
  else if flags.present && flags.write then
    (triggerCow p.addrSpace (pageNumber addr) s).map fun (_, s) => .resumed s
  else if p.stackList.isValidStackAddr addr.toNat then do
    let (ppn, s) ← s.alloc
    let s ← AddrSpace.map p.addrSpace (pageNumber addr) ppn stackFlags s
    return .resumed s
  else do
    let (found, _, s) ← p.loader.load addr p.addrSpace s
    return if found then .resumed s else .killed

/-- The fault is dealt with: the access is allowed when the handler returns, or the process has
been killed, be it before. -/
def Settles (p : FaultProc) (s : Vm) (addr : UInt64) (a : UserAccess) : Prop :=
  match p.handlePageFault addr (faultFlags s p.addrSpace addr a) s with
  | some (.resumed s') => Permits s' p.addrSpace addr a
  | some .exited => p.state ≠ .running
  | some .killed => True
  | none => False

/-- The tables on the path of a page that are there may be written through. -/
def PathWrites (s : Vm) (pml4 virt : ℕ) : Prop :=
  ∀ d < 4, ∀ e, entryAt s pml4 virt d = some e → write e = true

/-- A page can be mapped for an access: there is none, there are frames for it and for its
tables, and the flags and the tables above it allow the access. -/
structure Fillable (s : Vm) (pml4 virt : ℕ) (a : UserAccess) (flags : MapFlags) : Prop where
  absent : view s pml4 virt = none
  frames : missingTables s virt 3 pml4 < s.pageMap.freeFrames
  writes : a = .write → flags.write = true ∧ PathWrites s pml4 virt
  executes : a = .fetch → flags.noexec = false

variable {s s' : Vm} {live : List ℕ} {pos : Positions} {base : ℕ → ℕ} {r v d phys : ℕ}
  {flags : MapFlags} {addr : UInt64} {a : UserAccess} {p : FaultProc}

theorem lt_userPages (h : checkIfValid addr = true) : pageNumber addr < userPages := by
  rw [checkIfValid] at h
  split_ifs at h with hmin hbreak
  rw [pageNumber, Loader.toNat_shiftRight]
  simp only [userBreak, userPages] at *
  omega

theorem checkIfValid_exitAddr : checkIfValid exitAddr = false := by decide

/-- What the processor allows is what the address space shows, as far as no table is write
protected. -/
theorem permits_iff : Permits s r addr a ↔ ∃ p, view s r (pageNumber addr) = some p ∧
    p.user = true ∧ (a = .write → PathWrites s r (pageNumber addr)) ∧
    (a = .fetch → p.noExec = false) := by
  have hwrite : ∀ es, walk s r (pageNumber addr) = some es →
      (es.all write = true ↔ PathWrites s r (pageNumber addr)) := by
    intro es hes
    constructor
    · intro hall d hd e he
      exact List.all_eq_true.mp hall e (mem_of_walk hes hd he)
    · intro hpath
      obtain ⟨e₀, e₁, e₂, e₃, h₀, h₁, h₂, h₃, rfl⟩ := walk_eq_some_iff.mp hes
      simp [hpath 0 (by decide) e₀ h₀, hpath 1 (by decide) e₁ h₁, hpath 2 (by decide) e₂ h₂,
        hpath 3 (by decide) e₃ h₃]
  have hallowed : ∀ es, walk s r (pageNumber addr) = some es →
      (a.allowed (translationOf es) = true ↔ (pageOf s es).user = true ∧
        (a = .write → PathWrites s r (pageNumber addr)) ∧
        (a = .fetch → (pageOf s es).noExec = false)) := by
    intro es hes
    rw [← hwrite es hes]
    cases a <;> simp [UserAccess.allowed, translationOf, pageOf]
  constructor
  · rintro ⟨t, ht, hall⟩
    obtain ⟨es, hes, rfl⟩ := Option.map_eq_some_iff.mp ht
    exact ⟨_, by rw [view, hes]; rfl, (hallowed es hes).mp hall⟩
  · rintro ⟨p, hp, hall⟩
    obtain ⟨es, hes, rfl⟩ := Option.map_eq_some_iff.mp hp
    exact ⟨_, by rw [AddrSpace.translate, hes]; rfl, (hallowed es hes).mpr hall⟩

/-- The tables that `map` adds may be written through. -/
theorem pathWrites_map (h : Settled base s live pos) (hr : r ∈ live) (hv : v < userPages)
    (hm : AddrSpace.map r v phys flags s = some s') :
    PathWrites s' r v ↔ flags.write = true ∧ PathWrites s r v := by
  obtain ⟨k, u, -, hk, hu, hfree, hmf⟩ := mapFrom_descend (d := 0) rfl rfl hm
  have hs := h.frameAt_slot hr hv (by omega) hu
  have hg := mapFrom_grown (h.counter_ne_zero hs.pos_eq) hfree hmf
  have habove : ∀ d < k, entryAt s' r v d = entryAt s r v d := by
    intro d hd
    refine entryAt_congr fun j hj t ht => ?_
    have hst := h.frameAt_slot hr hv (by omega) ht
    exact hg.other t _ (h.counter_ne_zero hst.pos_eq) (Or.inl (hs.ne_of_depth hst (by omega)))
  have hbelow : ∀ d, k ≤ d → entryAt s r v d = none := by
    intro d hd
    rw [← Option.map_eq_none_iff, ← frameAt_succ]
    exact frameAt_eq_none hu hfree (by omega)
  have hu' : frameAt s' r v k = some u := by
    rw [← hu]
    refine frameAt_congr fun j hj t ht => ?_
    have hst := h.frameAt_slot hr hv (by omega) ht
    rw [hg.other t _ (h.counter_ne_zero hst.pos_eq) (Or.inl (hs.ne_of_depth hst hj))]
    exact ⟨rfl, fun _ => rfl⟩
  constructor
  · intro hpath
    refine ⟨?_, fun d hd e he => ?_⟩
    · have hleaf := hpath 3 (by decide) _ (h.entryAt_map hr hv hm)
      rwa [write_ofPage] at hleaf
    · rcases Nat.lt_or_ge d k with hdk | hdk
      · exact hpath d hd e (by rw [habove d hdk, he])
      · rw [hbelow d hdk] at he
        cases he
  · rintro ⟨hwrite, hpath⟩ d hd e he
    rcases Nat.lt_or_ge d k with hdk | hdk
    · exact hpath d hd e (by rw [← habove d hdk, he])
    · obtain ⟨es, hes, htables⟩ := hg.chain
      rcases List.mem_append.mp (mem_walkFrom_of_entryAt (by omega) hu' hes hdk (by omega) he)
        with he | he
      · obtain ⟨n, -, rfl⟩ := htables e he
        exact write_ofTable n
      · rw [List.mem_singleton.mp he, write_ofPage, hwrite]

/-- When filling a page makes the access possible. -/
theorem fillable_iff (h : Settled base s live pos) (hr : r ∈ live)
    (hv : pageNumber addr < userPages) (hsh : flags.shared = false) (huser : flags.user = true)
    (content : ℕ → BitVec 64) :
    (∃ phys s₁ s', s.alloc = some (phys, s₁) ∧
      AddrSpace.map r (pageNumber addr) phys flags (s₁.setFrame phys content) = some s' ∧
      Permits s' r addr a) ↔ Fillable s r (pageNumber addr) a flags := by
  have hpermits : ∀ {phys s₁ s'}, s.alloc = some (phys, s₁) →
      AddrSpace.map r (pageNumber addr) phys flags (s₁.setFrame phys content) = some s' →
      (Permits s' r addr a ↔
        (a = .write → flags.write = true ∧ PathWrites s r (pageNumber addr)) ∧
          (a = .fetch → flags.noexec = false)) := by
    intro phys s₁ s' ha hm
    obtain ⟨h₂, -⟩ := h.allocFilled ha content
    obtain ⟨-, hview, -⟩ := h.addedPage hr hv hsh ha hm
    have hpath : PathWrites (s₁.setFrame phys content) r (pageNumber addr) ↔
        PathWrites s r (pageNumber addr) := by
      have hentry : ∀ d < 4, entryAt (s₁.setFrame phys content) r (pageNumber addr) d =
          entryAt s r (pageNumber addr) d := fun d hd => entryAt_congr fun k hk u hu =>
        Vm.entry_congr (h.mem_allocFilled hr hv ha content (by omega) hu)
      constructor
      · intro hpath d hd e he
        exact hpath d hd e (by rw [hentry d hd, he])
      · intro hpath d hd e he
        exact hpath d hd e (by rw [← hentry d hd, he])
    rw [permits_iff, pathWrites_map h₂ hr hv hm, hpath, hview]
    simp [huser]
  constructor
  · rintro ⟨phys, s₁, s', ha, hm, hper⟩
    obtain ⟨habsent, hframes⟩ := (h.exists_addPage_iff hr hv content).mp ⟨phys, s₁, s', ha, hm⟩
    obtain ⟨hwrites, hexecutes⟩ := (hpermits ha hm).mp hper
    exact ⟨habsent, hframes, hwrites, hexecutes⟩
  · rintro ⟨habsent, hframes, hwrites, hexecutes⟩
    obtain ⟨phys, s₁, s', ha, hm⟩ : ∃ phys s₁ s', s.alloc = some (phys, s₁) ∧
        AddrSpace.map r (pageNumber addr) phys flags (s₁.setFrame phys content) = some s' :=
      (h.exists_addPage_iff hr hv content).mpr ⟨habsent, hframes⟩
    exact ⟨phys, s₁, s', ha, hm, (hpermits ha hm).mpr ⟨hwrites, hexecutes⟩⟩

theorem isSome_walk (s : Vm) (r v : ℕ) : (walk s r v).isSome = (view s r v).isSome := by
  rw [view, Option.isSome_map]

/-- What the handler does below `USER_BREAK`. -/
theorem handlePageFault_eq (h : checkIfValid addr = true) :
    p.handlePageFault addr (faultFlags s p.addrSpace addr a) s =
      if (view s p.addrSpace (pageNumber addr)).isSome = true ∧ a = .write then
        (triggerCow p.addrSpace (pageNumber addr) s).map fun r => .resumed r.2
      else if p.stackList.isValidStackAddr addr.toNat then
        (s.alloc.bind fun r => AddrSpace.map p.addrSpace (pageNumber addr) r.1 stackFlags r.2).map
          .resumed
      else match p.loader.segment addr with
        | none => some .killed
        | some e => (p.loader.loadPage e addr p.addrSpace s).map .resumed := by
  have hexit : addr ≠ exitAddr := by
    rintro rfl
    rw [checkIfValid_exitAddr] at h
    cases h
  rw [handlePageFault, faultFlags, isSome_walk]
  simp only [Bool.false_eq_true, if_false, hexit, false_and, h, Bool.not_true, Bool.and_eq_true,
    beq_iff_eq]
  split_ifs
  · rfl
  · cases s.alloc with
    | none => rfl
    | some r =>
      cases hm : AddrSpace.map p.addrSpace (pageNumber addr) r.1 stackFlags r.2 <;> simp [hm]
  · rw [Loader.load_eq]
    cases p.loader.segment addr with
    | none => rfl
    | some e => cases hl : p.loader.loadPage e addr p.addrSpace s <;> simp [hl]

theorem settles_iff_fillable (h : Settled base s live pos) (hr : p.addrSpace ∈ live)
    (hv : pageNumber addr < userPages) (hsh : flags.shared = false) (huser : flags.user = true)
    (content : Vm → ℕ → ℕ → BitVec 64)
    (hp : p.handlePageFault addr (faultFlags s p.addrSpace addr a) s =
      (s.alloc.bind fun r => AddrSpace.map p.addrSpace (pageNumber addr) r.1 flags
        (r.2.setFrame r.1 (content r.2 r.1))).map .resumed) :
    p.Settles s addr a ↔ Fillable s p.addrSpace (pageNumber addr) a flags := by
  rw [Settles, hp]
  cases ha : s.alloc with
  | none =>
    rw [← fillable_iff h hr hv hsh huser fun _ => 0]
    simp [ha]
  | some r =>
    obtain ⟨phys, s₁⟩ := r
    rw [← fillable_iff h hr hv hsh huser (content s₁ phys)]
    cases hm : AddrSpace.map p.addrSpace (pageNumber addr) phys flags
        (s₁.setFrame phys (content s₁ phys)) with
    | none => simp [ha, hm]
    | some s' => simp [ha, hm]

theorem settles_iff_of_stack (h : Settled base s live pos) (hr : p.addrSpace ∈ live)
    (hvalid : checkIfValid addr = true)
    (hnot : ¬ ((view s p.addrSpace (pageNumber addr)).isSome = true ∧ a = .write))
    (hstack : p.stackList.isValidStackAddr addr.toNat = true) :
    p.Settles s addr a ↔ Fillable s p.addrSpace (pageNumber addr) a stackFlags := by
  -- the page keeps what the frame had
  refine settles_iff_fillable h hr (lt_userPages hvalid) rfl rfl (fun s f => s.mem f) ?_
  have hsame : ∀ (s : Vm) f, s.setFrame f (s.mem f) = s := by
    intro s f
    rw [Vm.setFrame, Function.update_eq_self]
  simp only [handlePageFault_eq hvalid, if_neg hnot, if_pos hstack, hsame]

theorem settles_iff_of_segment {e : ProgHeader} (h : Settled base s live pos)
    (hr : p.addrSpace ∈ live) (hvalid : checkIfValid addr = true)
    (hnot : ¬ ((view s p.addrSpace (pageNumber addr)).isSome = true ∧ a = .write))
    (hstack : ¬ p.stackList.isValidStackAddr addr.toNat = true)
    (he : p.loader.segment addr = some e) :
    p.Settles s addr a ↔ Fillable s p.addrSpace (pageNumber addr) a (Loader.mapFlags e) := by
  refine settles_iff_fillable h hr (lt_userPages hvalid) rfl rfl
    (fun _ _ => p.loader.pageContent e addr) ?_
  simp only [handlePageFault_eq hvalid, if_neg hnot, if_neg hstack, he, Loader.loadPage_eq]
  rfl

theorem writable_of_permits {page : Page} (h : Permits s r addr .write)
    (hpage : view s r (pageNumber addr) = some page) :
    page.writable = true ∧ page.user = true := by
  obtain ⟨q, hq, huser, hpath, -⟩ := permits_iff.mp h
  obtain rfl : page = q := Option.some.inj (hpage.symm.trans hq)
  refine ⟨?_, huser⟩
  obtain ⟨es, hes, rfl⟩ := Option.map_eq_some_iff.mp hpage
  obtain ⟨e₀, e₁, e₂, e₃, h₀, h₁, h₂, h₃, rfl⟩ := walk_eq_some_iff.mp hes
  simp [pageOf, writable, hpath rfl 0 (by decide) e₀ h₀, hpath rfl 1 (by decide) e₁ h₁,
    hpath rfl 2 (by decide) e₂ h₂, hpath rfl 3 (by decide) e₃ h₃]

/-- A write to a page that is there: what `triggerCow` does is enough for pages that may be
written. -/
theorem settles_iff_of_present {page : Page} (h : Settled base s live pos)
    (hr : p.addrSpace ∈ live) (hvalid : checkIfValid addr = true)
    (hpage : view s p.addrSpace (pageNumber addr) = some page) :
    p.Settles s addr .write ↔ page.writable = true ∧ page.user = true ∧
      cowFrames s p.addrSpace (pageNumber addr) ≤ s.pageMap.freeFrames := by
  have hv := lt_userPages hvalid
  have hresolved : ∀ {b s'}, triggerCow p.addrSpace (pageNumber addr) s = some (b, s') →
      (Permits s' p.addrSpace addr .write ↔ page.writable = true ∧ page.user = true) := by
    intro b s' hc
    obtain ⟨base', pos', h', hresh, hiff, hwrite, -, -⟩ := h.triggerCow hr hv hc
    have hview : view s' p.addrSpace (pageNumber addr) = some page := by
      rw [hresh.view_eq h.toShape hr hv, hpage]
    refine ⟨fun hper => writable_of_permits hper hview, ?_⟩
    rintro ⟨hw, huser⟩
    refine permits_iff.mpr ⟨page, hview, huser, fun _ d hd e he => ?_, nofun⟩
    obtain ⟨es, hes, hall⟩ := hwrite (hiff.mpr ⟨page, hpage, hw⟩)
    exact List.all_eq_true.mp hall e (mem_of_walk hes hd he)
  rw [Settles, handlePageFault_eq hvalid, if_pos ⟨by rw [hpage]; rfl, rfl⟩]
  cases hc : triggerCow p.addrSpace (pageNumber addr) s with
  | none =>
    simp only [Option.map_none, false_iff]
    rintro ⟨hw, -, hframes⟩
    obtain ⟨b, s', hsome⟩ := (h.exists_triggerCow_iff hr hv hpage hw).mpr hframes
    rw [hc] at hsome
    cases hsome
  | some r =>
    obtain ⟨b, s'⟩ := r
    simp only [Option.map_some, hresolved hc]
    refine ⟨fun ⟨hw, huser⟩ => ⟨hw, huser, ?_⟩, fun ⟨hw, huser, _⟩ => ⟨hw, huser⟩⟩
    exact (h.exists_triggerCow_iff hr hv hpage hw).mp ⟨b, s', hc⟩

/-- When the handler deals with a fault. A write to a page that is there needs a user page that
may be written and a frame for each copy. Elsewhere, at an address of a stack or of a segment,
there must be no page yet. -/
structure Resolvable (p : FaultProc) (s : Vm) (addr : UInt64) (a : UserAccess) : Prop where
  exit : addr = exitAddr → a = .fetch → p.state ≠ .running
  present : checkIfValid addr = true → a = .write →
    ∀ page, view s p.addrSpace (pageNumber addr) = some page → page.writable = true ∧
      page.user = true ∧ cowFrames s p.addrSpace (pageNumber addr) ≤ s.pageMap.freeFrames
  stack : checkIfValid addr = true →
    ¬ ((view s p.addrSpace (pageNumber addr)).isSome = true ∧ a = .write) →
    p.stackList.isValidStackAddr addr.toNat = true →
    Fillable s p.addrSpace (pageNumber addr) a stackFlags
  segment : checkIfValid addr = true →
    ¬ ((view s p.addrSpace (pageNumber addr)).isSome = true ∧ a = .write) →
    ¬ p.stackList.isValidStackAddr addr.toNat = true →
    ∀ e, p.loader.segment addr = some e →
      Fillable s p.addrSpace (pageNumber addr) a (Loader.mapFlags e)

/-- The handler deals with a fault of user code exactly if it is resolvable. -/
theorem settles_iff_resolvable (h : Settled base s live pos) (hr : p.addrSpace ∈ live) :
    p.Settles s addr a ↔ p.Resolvable s addr a := by
  by_cases hvalid : checkIfValid addr = true
  · have hexit : addr ≠ exitAddr := by
      rintro rfl
      rw [checkIfValid_exitAddr] at hvalid
      cases hvalid
    by_cases hnot : (view s p.addrSpace (pageNumber addr)).isSome = true ∧ a = .write
    · obtain ⟨hsome, rfl⟩ := hnot
      obtain ⟨page, hpage⟩ := Option.isSome_iff_exists.mp hsome
      rw [settles_iff_of_present h hr hvalid hpage]
      constructor
      · intro hp
        refine ⟨fun he => absurd he hexit, fun _ _ q hq => ?_, fun _ hn => absurd ⟨hsome, rfl⟩ hn,
          fun _ hn => absurd ⟨hsome, rfl⟩ hn⟩
        rw [hpage] at hq
        cases hq
        exact hp
      · intro hres
        exact hres.present hvalid rfl page hpage
    · have hpresent : a = .write → ∀ page, view s p.addrSpace (pageNumber addr) ≠ some page :=
        fun ha page hpage => hnot ⟨by rw [hpage]; rfl, ha⟩
      by_cases hstack : p.stackList.isValidStackAddr addr.toNat = true
      · rw [settles_iff_of_stack h hr hvalid hnot hstack]
        refine ⟨fun hf => ⟨fun he => absurd he hexit,
          fun _ ha page hp => absurd hp (hpresent ha page), fun _ _ _ => hf,
          fun _ _ hn => absurd hstack hn⟩, fun hres => hres.stack hvalid hnot hstack⟩
      · cases hseg : p.loader.segment addr with
        | none =>
          have hkilled : p.Settles s addr a := by
            rw [Settles, handlePageFault_eq hvalid, if_neg hnot, if_neg hstack, hseg]
            trivial
          refine ⟨fun _ => ⟨fun he => absurd he hexit,
            fun _ ha page hp => absurd hp (hpresent ha page), fun _ _ hs => absurd hs hstack,
            fun _ _ _ e he => ?_⟩, fun _ => hkilled⟩
          rw [hseg] at he
          cases he
        | some e =>
          rw [settles_iff_of_segment h hr hvalid hnot hstack hseg]
          refine ⟨fun hf => ⟨fun he => absurd he hexit,
            fun _ ha page hp => absurd hp (hpresent ha page), fun _ _ hs => absurd hs hstack,
            fun _ _ _ e' he => ?_⟩, fun hres => hres.segment hvalid hnot hstack e hseg⟩
          rw [hseg] at he
          cases he
          exact hf
  · have hp : p.handlePageFault addr (faultFlags s p.addrSpace addr a) s =
        if addr = exitAddr ∧ a = .fetch then some .exited else some .killed := by
      rw [handlePageFault, faultFlags]
      simp only [Bool.false_eq_true, if_false, beq_iff_eq, hvalid, Bool.not_false, if_true]
    rw [Settles, hp]
    split_ifs with hexit
    · refine ⟨fun hstate => ⟨fun _ _ => hstate, fun hn => absurd hn hvalid,
        fun hn => absurd hn hvalid, fun hn => absurd hn hvalid⟩, fun hres => ?_⟩
      exact hres.exit hexit.1 hexit.2
    · refine ⟨fun _ => ⟨fun he ha => absurd ⟨he, ha⟩ hexit, fun hn => absurd hn hvalid,
        fun hn => absurd hn hvalid, fun hn => absurd hn hvalid⟩, fun _ => trivial⟩

/-- A process that runs the program, with no stack. -/
def programProc : FaultProc := ⟨Loader.started.1, .empty, .ofBinary Loader.program, .running⟩

/-- The first instruction of the program is fetched. -/
theorem settles_iff_resolvable_fetch :
    programProc.Settles Loader.started.2 0x400123 .fetch := by
  obtain ⟨pos, hset⟩ := Loader.settled_started
  refine (settles_iff_resolvable hset List.mem_cons_self).mpr ⟨?_, (by rintro _ ⟨⟩), ?_, ?_⟩
  · exact fun h => absurd h (by decide)
  · exact fun _ _ h => absurd h (by decide)
  · intro _ _ _ e he
    have hseg : (Loader.ofBinary Loader.program).segment 0x400123 =
        some ⟨1, 5, 0, 0x400000, 4096, 8192⟩ := by
      rw [Loader.segment, Loader.pht_program]
      decide
    obtain rfl := Option.some.inj (hseg.symm.trans he)
    have hv : pageNumber 0x400123 < userPages := by decide
    have hle : missingTables Loader.started.2 (pageNumber 0x400123) 3 Loader.started.1 ≤ 3 :=
      missingTables_le _ _ _ _
    have hfree := Loader.freeFrames_started
    exact ⟨Loader.view_started hv, lt_of_le_of_lt hle hfree, (by rintro ⟨⟩), fun _ => by decide⟩

/-- A write to it is not: the page may not be written, and the handler returns all the same. -/
theorem not_forall_settles :
    ¬ ∀ (p : FaultProc) (addr : UInt64) (a : UserAccess) (base : ℕ → ℕ) (s : Vm) (live : List ℕ)
      (pos : Positions), Settled base s live pos → p.addrSpace ∈ live →
      ¬ Permits s p.addrSpace addr a → p.Settles s addr a := by
  intro h
  obtain ⟨pos, hset⟩ := Loader.settled_started
  have hmem : (⟨1, 5, 0, 0x400000, 4096, 8192⟩ : ProgHeader) ∈
      (Loader.ofBinary Loader.program).pht := by
    rw [Loader.pht_program]
    exact List.mem_cons_self
  have hc : ProgHeader.Contains ⟨1, 5, 0, 0x400000, 4096, 8192⟩ 0x400123 :=
    ⟨rfl, by decide, by decide⟩
  obtain ⟨s', -, -, ⟨pos', hset'⟩, hview, -⟩ := Loader.accepted_program.load hmem hc hset
    List.mem_cons_self (by decide) (Loader.view_started (by decide)) Loader.freeFrames_started
  have hpage : view s' programProc.addrSpace (pageNumber 0x400123) = some
      ((Loader.ofBinary Loader.program).segmentPage ⟨1, 5, 0, 0x400000, 4096, 8192⟩
        (pageNumber 0x400123)) := hview
  have hread : ¬ ((Loader.ofBinary Loader.program).segmentPage
      ⟨1, 5, 0, 0x400000, 4096, 8192⟩ (pageNumber 0x400123)).writable = true := by decide
  have hsettles := h programProc 0x400123 .write _ _ _ _ hset' List.mem_cons_self
    fun hper => hread (writable_of_permits hper hpage).1
  exact hread ((settles_iff_of_present hset' List.mem_cons_self (by decide) hpage).mp hsettles).1

end FaultProc

end Koerix
