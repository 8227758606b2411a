import Koerix.AddrSpace.Clone
import Koerix.Lib.Run

/-! # Runs of address space calls

The live address spaces of the machine, and the calls that the rest of the
kernel makes on them. Demand loading and stack growth map a frame fresh from
`alloc`, whose contents the caller has filled in; the framebuffer call maps
device memory.
-/

namespace Koerix

open GenericPagingTable AddrSpace

/-- Physical memory and the PML4 frames of the live address spaces, oldest first. -/
structure Spaces where
  vm : Vm
  live : List ℕ

namespace Spaces

/-- A call, on the address space with the given index among the live ones. -/
inductive Call
  | create
  | map (a virt : ℕ) (content : ℕ → BitVec 64) (flags : MapFlags)
  | mapDevice (a virt phys : ℕ) (flags : MapFlags)
  | clone (a : ℕ)
  | triggerCow (a virt : ℕ)
  | destroy (a : ℕ)

/-- The effect of a call; undefined if there is no such address space, or on a panic. -/
def step (s : Spaces) : Call → Option Spaces
  | .create => do
    let (r, vm) ← AddrSpace.create s.vm
    return ⟨vm, s.live ++ [r]⟩
  | .map a virt content flags => do
    let r ← s.live[a]?
    let (phys, vm) ← s.vm.alloc
    let vm ← AddrSpace.map r virt phys flags (vm.setFrame phys content)
    return { s with vm }
  | .mapDevice a virt phys flags => do
    let r ← s.live[a]?
    let vm ← AddrSpace.map r virt phys flags s.vm
    return { s with vm }
  | .clone a => do
    let r ← s.live[a]?
    let (r', vm) ← AddrSpace.clone r s.vm
    return ⟨vm, s.live ++ [r']⟩
  | .triggerCow a virt => do
    let r ← s.live[a]?
    let (_, vm) ← AddrSpace.triggerCow r virt s.vm
    return { s with vm }
  | .destroy a => do
    let r ← s.live[a]?
    let vm ← AddrSpace.destroy r s.vm
    return ⟨vm, s.live.eraseIdx a⟩

/-- A machine without address spaces. -/
def initial (vm : Vm) : Spaces := ⟨vm, []⟩

instance neZero_frames : NeZero (2 ^ 28) := ⟨by decide⟩

/-- A machine with the given number of frames, all of them free and cleared. -/
def blank (frames : Fin (2 ^ 28)) : Vm where
  mem _ _ := 0
  pageMap := ⟨⟨frames, .ofNat frames, .ofNat frames, 0, fun _ => 0⟩, frames.isLt.le⟩
  kernelPml4 := none

/-- An address space with one page, and its clone. -/
def forkCalls : List Call :=
  [.create, .map 0 0 (fun _ => 0) ⟨true, true, false, false, false⟩, .clone 0]

def afterFork : Spaces := (forkCalls.foldlM step (initial (blank 16))).get (by decide +kernel)

/-- The references that the kernel holds before the first address space is made. -/
def reserved (vm : Vm) (f : ℕ) : ℕ :=
  if f < vm.pageMap.totalPages then (vm.pageMap.pagemap f).toNat else 0

variable {vm₀ : Vm} {s s' : Spaces} {base base' : ℕ → ℕ} {pos pos' : Positions}
  {a r virt phys : ℕ} {flags : MapFlags}

section Inversion

/-! What a call that returns has done. -/

theorem step_create (hs : s.step .create = some s') :
    ∃ r vm, AddrSpace.create s.vm = some (r, vm) ∧ s' = ⟨vm, s.live ++ [r]⟩ := by
  simp only [step, Option.bind_eq_bind, Option.bind_eq_some_iff, Prod.exists, Option.pure_def,
    Option.some.injEq] at hs
  obtain ⟨r, vm, hc, rfl⟩ := hs
  exact ⟨r, vm, hc, rfl⟩

theorem step_map {content : ℕ → BitVec 64} (hs : s.step (.map a virt content flags) = some s') :
    ∃ r phys vm₁ vm, s.live[a]? = some r ∧ s.vm.alloc = some (phys, vm₁) ∧
      AddrSpace.map r virt phys flags (vm₁.setFrame phys content) = some vm ∧
      s' = { s with vm } := by
  simp only [step, Option.bind_eq_bind, Option.bind_eq_some_iff, Prod.exists, Option.pure_def,
    Option.some.injEq] at hs
  obtain ⟨r, hr, phys, vm₁, ha, vm, hm, rfl⟩ := hs
  exact ⟨r, phys, vm₁, vm, hr, ha, hm, rfl⟩

theorem step_mapDevice (hs : s.step (.mapDevice a virt phys flags) = some s') :
    ∃ r vm, s.live[a]? = some r ∧ AddrSpace.map r virt phys flags s.vm = some vm ∧
      s' = { s with vm } := by
  simp only [step, Option.bind_eq_bind, Option.bind_eq_some_iff, Option.pure_def,
    Option.some.injEq] at hs
  obtain ⟨r, hr, vm, hm, rfl⟩ := hs
  exact ⟨r, vm, hr, hm, rfl⟩

theorem step_clone (hs : s.step (.clone a) = some s') :
    ∃ r n vm, s.live[a]? = some r ∧ AddrSpace.clone r s.vm = some (n, vm) ∧
      s' = ⟨vm, s.live ++ [n]⟩ := by
  simp only [step, Option.bind_eq_bind, Option.bind_eq_some_iff, Prod.exists, Option.pure_def,
    Option.some.injEq] at hs
  obtain ⟨r, hr, n, vm, hc, rfl⟩ := hs
  exact ⟨r, n, vm, hr, hc, rfl⟩

theorem step_triggerCow (hs : s.step (.triggerCow a virt) = some s') :
    ∃ r b vm, s.live[a]? = some r ∧ AddrSpace.triggerCow r virt s.vm = some (b, vm) ∧
      s' = { s with vm } := by
  simp only [step, Option.bind_eq_bind, Option.bind_eq_some_iff, Prod.exists, Option.pure_def,
    Option.some.injEq] at hs
  obtain ⟨r, hr, b, vm, hc, rfl⟩ := hs
  exact ⟨r, b, vm, hr, hc, rfl⟩

theorem step_destroy (hs : s.step (.destroy a) = some s') :
    ∃ r vm, s.live[a]? = some r ∧ AddrSpace.destroy r s.vm = some vm ∧
      s' = ⟨vm, s.live.eraseIdx a⟩ := by
  simp only [step, Option.bind_eq_bind, Option.bind_eq_some_iff, Option.pure_def,
    Option.some.injEq] at hs
  obtain ⟨r, hr, vm, hd, rfl⟩ := hs
  exact ⟨r, vm, hr, hd, rfl⟩

end Inversion

theorem settled_initial (vm : Vm) : Settled (reserved vm) vm [] (fun _ => none) where
  bounded h := by simp at h
  root := by simp
  entries hs := by simpa using hs.pos_eq
  refs {f} hf := by
    have hd : InDegree.deg (slots vm.pageMap.totalPages fun _ => none) (target vm) f = 0 := by
      refine InDegree.deg_eq_zero_iff.mpr ?_
      rintro ⟨t, i⟩ hk
      obtain ⟨-, d, q, hs⟩ := mem_slots.mp hk
      simpa using hs.pos_eq
    simp [count, hd, restHeld, reserved, hf]
  used h := by simp at h
  nodup := List.nodup_nil
  few := by decide
  base_lt f := by
    unfold reserved
    split_ifs
    · exact UInt8.toNat_lt _
    · decide
  base_pos h := by simp at h

/-- A private page that `map` adds holds a reference to its frame. -/
theorem allCounted_map {vm vm' : Vm} {live : List ℕ} {u k : ℕ} (h : Settled base vm live pos)
    (h' : Settled base' vm' live pos') (hext : Extended vm vm' pos pos' phys flags)
    (hg : Grown vm vm' virt phys flags k u) (hsh : flags.shared = false)
    (hlt : phys < vm.pageMap.totalPages)
    (hn : ∀ t i d q, Slot pos t i d q → present (vm.entry t i) = true →
      shared (vm.entry t i) = false ∧ ppn (vm.entry t i) < vm.pageMap.totalPages) :
    AllCounted vm' live := by
  have hentry : ∀ e, Written vm.pageMap.totalPages phys flags e →
      shared e = false ∧ ppn e < vm.pageMap.totalPages := by
    have hfit : ∀ n < vm.pageMap.totalPages, n % 2 ^ 28 = n :=
      fun n hn => Nat.mod_eq_of_lt (lt_of_lt_of_le hn vm.pageMap.fits)
    rintro e (rfl | ⟨n, hn, rfl⟩)
    · rw [ppn_ofPage, hfit _ hlt]
      exact ⟨by simpa using hsh, hlt⟩
    · rw [ppn_ofTable, hfit _ hn]
      exact ⟨by simp, hn⟩
  intro r hr v hv p hp
  obtain ⟨es, hw, rfl⟩ := Option.map_eq_some_iff.mp hp
  obtain ⟨e₀, e₁, e₂, e₃, -, -, -, he, rfl⟩ := walk_eq_some_iff.mp hw
  obtain ⟨t, ht, rfl, hpres⟩ := entryAt_eq_some_iff.mp he
  have hs' := h'.frameAt_slot hr hv (by decide) ht
  suffices hgoal : shared (vm'.entry t (tableIndex (3 - 3) v)) = false ∧
      ppn (vm'.entry t (tableIndex (3 - 3) v)) < vm.pageMap.totalPages by
    simpa [pageOf, hg.total] using hgoal
  rcases hpos : pos t with _ | ⟨d, q⟩
  · exact hentry _ (hext.fresh t _ 3 _ hs' hpos hpres)
  · have hs : Slot pos t (tableIndex (3 - 3) v) 3 (prefixAt 3 v) := by
      refine ⟨?_, hs'.depth, hs'.index⟩
      rw [hpos, ← hext.mono t _ hpos, hs'.pos_eq]
    by_cases hk : t = u ∧ tableIndex (3 - 3) v = tableIndex k virt
    · obtain ⟨rfl, hi⟩ := hk
      obtain ⟨es, hc, hes⟩ := hg.chain
      rw [hi]
      exact hentry _ (head_of_chain hc hes)
    · have hne : t ≠ u ∨ tableIndex (3 - 3) v ≠ tableIndex k virt := by tauto
      rw [hg.other t _ (h.counter_ne_zero hpos) hne] at hpres ⊢
      exact hn t _ 3 _ hs hpres

theorem allCounted_append {vm : Vm} {live : List ℕ} (h : AllCounted vm live)
    (hr : ∀ virt < userPages, ∀ p, view vm r virt = some p →
      p.shared = false ∧ p.foreign = false) : AllCounted vm (live ++ [r]) := by
  intro r' hm
  rcases List.mem_append.mp hm with hm | hm
  · exact h r' hm
  · rw [List.mem_singleton.mp hm]
    exact hr

theorem settled_mapFresh {vm vm₁ vm' : Vm} {live : List ℕ} {content : ℕ → BitVec 64}
    (h : Settled base vm live pos) (hr : r ∈ live) (hv : virt < userPages)
    (ha : vm.alloc = some (phys, vm₁))
    (hm : AddrSpace.map r virt phys flags (vm₁.setFrame phys content) = some vm') :
    ∃ base' pos', Settled base' vm' live pos' ∧
      vm'.pageMap.totalPages = vm.pageMap.totalPages ∧ (∀ f, base f ≠ 0 → base' f ≠ 0) ∧
      (flags.shared = false → base' = base ∧ (AllCounted vm live → AllCounted vm' live)) := by
  obtain ⟨hpos, hb, hvac, h₁⟩ := h.alloc ha
  obtain ⟨hmem, -, hlt, -, ht, -⟩ := Vm.alloc_eq_some ha
  have hmem' : ∀ u, pos u ≠ none → (vm₁.setFrame phys content).mem u = vm₁.mem u :=
    fun u hu => Vm.mem_setFrame_of_ne (by rintro rfl; exact hu hpos)
  have h₂ : Settled (Function.update base phys 1) (vm₁.setFrame phys content) live pos :=
    h₁.setOutside rfl hmem'
  rcases hsh : flags.shared with _ | _
  · obtain ⟨pos', k, u, h', hext, hg⟩ :=
      h₂.map (.fresh hb (by simpa [ht] using hlt) hsh (hvac.congr hmem')) hr hv hm
    refine ⟨base, pos', h', hg.total.trans ht, fun _ => id, fun _ => ⟨rfl, fun hn => ?_⟩⟩
    refine allCounted_map h₂ h' hext hg hsh (by simpa [ht] using hlt) fun t i d q hs hp => ?_
    have he : (vm₁.setFrame phys content).entry t i = vm.entry t i := by
      rw [Vm.entry_congr (hmem' t (by simp [hs.pos_eq])), Vm.entry_congr (congrFun hmem t)]
    rw [he] at hp ⊢
    rw [Vm.pageMap_setFrame, ht]
    exact h.counted_entry hn hs hp
  · obtain ⟨pos', k, u, h', -, hg⟩ :=
      h₂.map (.device hsh (by simpa [ht] using hlt) (by simp)) hr hv hm
    refine ⟨_, pos', h', hg.total.trans ht, fun f hf => ?_, fun hf => by cases hf⟩
    rcases eq_or_ne f phys with rfl | hne
    · simp
    · rwa [Function.update_of_ne hne]

/-- The calls of fork and copy-on-write on private memory: fewer than 256 address spaces, and
only fresh frames are mapped, without sharing. -/
def Private (s : Spaces) : Call → Prop
  | .create | .clone _ => s.live.length + 1 < 256
  | .map _ virt _ flags => virt < userPages ∧ flags.shared = false
  | .triggerCow _ virt => virt < userPages
  | .mapDevice .. | .destroy _ => False

instance (s : Spaces) : DecidablePred (Private s) := by
  intro c
  cases c <;> unfold Private <;> infer_instance

/-- What private calls keep: exact counters, and no page without a reference. -/
structure PrivateInv (vm₀ : Vm) (s : Spaces) (pos : Positions) : Prop where
  settled : Settled (reserved vm₀) s.vm s.live pos
  counted : AllCounted s.vm s.live
  total : s.vm.pageMap.totalPages = vm₀.pageMap.totalPages

theorem PrivateInv.step {c : Call} (h : PrivateInv vm₀ s pos) (hok : Private s c)
    (hs : s.step c = some s') : ∃ pos', PrivateInv vm₀ s' pos' := by
  cases c with
  | create =>
    obtain ⟨r, vm, hc, rfl⟩ := step_create hs
    obtain ⟨hresh, hview⟩ := h.settled.create_reshaped hc
    exact ⟨_, (h.settled.create hok hc).2,
      allCounted_append (hresh.allCounted h.settled.toShape h.counted)
      fun v hv p hp => by simp [hview v hv] at hp, hresh.total.trans h.total⟩
  | map a virt content flags =>
    obtain ⟨r, phys, vm₁, vm, hr, ha, hm, rfl⟩ := step_map hs
    obtain ⟨base', pos', hset, htotal, -, hsh⟩ :=
      settled_mapFresh h.settled (List.mem_of_getElem? hr) hok.1 ha hm
    obtain ⟨rfl, hn⟩ := hsh hok.2
    exact ⟨pos', hset, hn h.counted, htotal.trans h.total⟩
  | mapDevice => exact hok.elim
  | clone a =>
    obtain ⟨r, n, vm, hr, hc, rfl⟩ := step_clone hs
    have hmem := List.mem_of_getElem? hr
    obtain ⟨hpos, hset, hresh, hview⟩ := h.settled.clone hmem hok hc
    exact ⟨_, hset, allCounted_append (hresh.allCounted h.settled.toShape h.counted)
      fun v hv p hp => h.counted r hmem v hv p (by rwa [hview v hv] at hp),
      hresh.total.trans h.total⟩
  | triggerCow a virt =>
    obtain ⟨r, b, vm, hr, hc, rfl⟩ := step_triggerCow hs
    obtain ⟨base', pos', hset, hresh, -, -, -, hbase⟩ :=
      h.settled.triggerCow (List.mem_of_getElem? hr) hok hc
    obtain rfl := hbase h.counted
    exact ⟨pos', hset, hresh.allCounted h.settled.toShape h.counted, hresh.total.trans h.total⟩
  | destroy => exact hok.elim

theorem PrivateInv.initial (vm : Vm) : PrivateInv vm (Spaces.initial vm) (fun _ => none) where
  settled := settled_initial vm
  counted := by
    intro r hr
    cases hr
  total := rfl

theorem PrivateInv.reachable (h : Run.Reachable Spaces.step Private (Spaces.initial vm₀) s) :
    ∃ pos, PrivateInv vm₀ s pos := by
  refine h.invariant (P := fun s => ∃ pos, PrivateInv vm₀ s pos) ⟨_, .initial vm₀⟩ ?_
  rintro s c s' ⟨pos, hinv⟩ hok hs
  exact hinv.step hok hs

/-- Device memory: outside the page map, or reserved at boot and then mapped shared. -/
def DeviceFrame (vm₀ : Vm) (phys : ℕ) (flags : MapFlags) : Prop :=
  vm₀.pageMap.totalPages ≤ phys ∧ phys < 2 ^ 28 ∨
    phys < vm₀.pageMap.totalPages ∧ flags.shared = true ∧ vm₀.pageMap.pagemap phys ≠ 0

instance (vm₀ : Vm) (phys : ℕ) (flags : MapFlags) : Decidable (DeviceFrame vm₀ phys flags) := by
  unfold DeviceFrame
  infer_instance

/-- The calls that the kernel makes, up to destroying: fewer than 256 address spaces, pages of
the lower half, and fresh frames or device memory. -/
def Lawful (vm₀ : Vm) (s : Spaces) : Call → Prop
  | .create | .clone _ => s.live.length + 1 < 256
  | .map _ virt _ _ | .triggerCow _ virt => virt < userPages
  | .mapDevice _ virt phys flags => virt < userPages ∧ DeviceFrame vm₀ phys flags
  | .destroy _ => False

instance (vm₀ : Vm) (s : Spaces) : DecidablePred (Lawful vm₀ s) := by
  intro c
  cases c <;> unfold Lawful <;> infer_instance

/-- What lawful calls keep: exact counters, and the reserved frames stay with the kernel. -/
structure LawfulInv (vm₀ : Vm) (s : Spaces) (base : ℕ → ℕ) (pos : Positions) : Prop where
  settled : Settled base s.vm s.live pos
  keeps : ∀ f < vm₀.pageMap.totalPages, vm₀.pageMap.pagemap f ≠ 0 → base f ≠ 0
  total : s.vm.pageMap.totalPages = vm₀.pageMap.totalPages

theorem LawfulInv.mapDevice {vm : Vm} (h : LawfulInv vm₀ s base pos) (hr : r ∈ s.live)
    (hv : virt < userPages) (hdev : DeviceFrame vm₀ phys flags)
    (hm : AddrSpace.map r virt phys flags s.vm = some vm) :
    ∃ pos', LawfulInv vm₀ { s with vm } base pos' := by
  have hpay : Payload s.vm pos phys flags base base := by
    rcases hdev with ⟨hge, hlt⟩ | ⟨hlt, hsh, hres⟩
    · exact .foreign (h.total ▸ hge) hlt
    · exact .device hsh (h.total ▸ hlt) (Nat.pos_of_ne_zero (h.keeps phys hlt hres))
  obtain ⟨pos', k, u, h', -, hg⟩ := h.settled.map hpay hr hv hm
  exact ⟨pos', h', h.keeps, hg.total.trans h.total⟩

theorem LawfulInv.step {c : Call} (h : LawfulInv vm₀ s base pos) (hok : Lawful vm₀ s c)
    (hs : s.step c = some s') : ∃ base' pos', LawfulInv vm₀ s' base' pos' := by
  cases c with
  | create =>
    obtain ⟨r, vm, hc, rfl⟩ := step_create hs
    obtain ⟨hresh, -⟩ := h.settled.create_reshaped hc
    exact ⟨base, _, (h.settled.create hok hc).2, h.keeps, hresh.total.trans h.total⟩
  | map a virt content flags =>
    obtain ⟨r, phys, vm₁, vm, hr, ha, hm, rfl⟩ := step_map hs
    obtain ⟨base', pos', hset, htotal, hkeep, -⟩ :=
      settled_mapFresh h.settled (List.mem_of_getElem? hr) hok ha hm
    exact ⟨base', pos', hset, fun f hf hres => hkeep f (h.keeps f hf hres), htotal.trans h.total⟩
  | mapDevice a virt phys flags =>
    obtain ⟨r, vm, hr, hm, rfl⟩ := step_mapDevice hs
    exact ⟨base, h.mapDevice (List.mem_of_getElem? hr) hok.1 hok.2 hm⟩
  | clone a =>
    obtain ⟨r, n, vm, hr, hc, rfl⟩ := step_clone hs
    obtain ⟨-, hset, hresh, -⟩ := h.settled.clone (List.mem_of_getElem? hr) hok hc
    exact ⟨base, _, hset, h.keeps, hresh.total.trans h.total⟩
  | triggerCow a virt =>
    obtain ⟨r, b, vm, hr, hc, rfl⟩ := step_triggerCow hs
    obtain ⟨base', pos', hset, hresh, -, -, hkeep, -⟩ :=
      h.settled.triggerCow (List.mem_of_getElem? hr) hok hc
    exact ⟨base', pos', hset, fun f hf hres => hkeep f (h.keeps f hf hres),
      hresh.total.trans h.total⟩
  | destroy => exact hok.elim

theorem LawfulInv.initial (vm : Vm) :
    LawfulInv vm (Spaces.initial vm) (reserved vm) (fun _ => none) where
  settled := settled_initial vm
  keeps f hf hres := by
    rw [reserved, if_pos hf]
    exact fun hz => hres (UInt8.toNat_inj.mp hz)
  total := rfl

theorem LawfulInv.reachable (h : Run.Reachable Spaces.step (Lawful vm₀) (Spaces.initial vm₀) s) :
    ∃ base pos, LawfulInv vm₀ s base pos := by
  refine h.invariant (P := fun s => ∃ base pos, LawfulInv vm₀ s base pos)
    ⟨_, _, .initial vm₀⟩ ?_
  rintro s c s' ⟨base, pos, hinv⟩ hok hs
  exact hinv.step hok hs

theorem reachable_afterFork : Run.Reachable step (Lawful (blank 16)) (initial (blank 16))
    afterFork := by
  have hguard : Run.Guarded step (Lawful (blank 16)) (initial (blank 16)) forkCalls := by
    decide +kernel
  exact hguard.reachable (Option.some_get _).symm

end Spaces

end Koerix
