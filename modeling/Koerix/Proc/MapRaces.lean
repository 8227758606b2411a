import Koerix.Machine.Basic
import Koerix.Proc.PageFault
import Koerix.Spaces.Isolation

/-! # Mappings of several threads

The processor finds a page missing, and the handler maps it some steps later, with interrupts
enabled. `fb_info` asks nobody before it maps the framebuffer. `map` may therefore find that the
page is there: when another thread has mapped it in between, be it in another process that
shares the table, when the page was there from the start and the fault had another reason, or
when the framebuffer is mapped for the second time.

A call on an address space holds its lock, and is a single step here.
-/

namespace Koerix

open GenericPagingTable AddrSpace

namespace Spaces

variable {vm₀ : Vm} {s s' : Spaces} {base : ℕ → ℕ} {pos : Positions} {c : Call} {r' v' : ℕ}

theorem live_step (hok : Lawful vm₀ s c) (hs : s.step c = some s') : s.live <+: s'.live := by
  cases c with
  | create =>
    obtain ⟨r, vm, -, rfl⟩ := step_create hs
    exact List.prefix_append _ _
  | map a virt content flags =>
    obtain ⟨r, phys, vm₁, vm, -, -, -, rfl⟩ := step_map hs
    exact List.prefix_rfl
  | mapDevice a virt phys flags =>
    obtain ⟨r, vm, -, -, rfl⟩ := step_mapDevice hs
    exact List.prefix_rfl
  | clone a =>
    obtain ⟨r, n, vm, -, -, rfl⟩ := step_clone hs
    exact List.prefix_append _ _
  | triggerCow a virt =>
    obtain ⟨r, b, vm, -, -, rfl⟩ := step_triggerCow hs
    exact List.prefix_rfl
  | destroy => exact hok.elim

/-- The pages that change are those that a call maps, where they are missing at the same
entry. -/
theorem LawfulInv.view_step (h : LawfulInv vm₀ s base pos) (hok : Lawful vm₀ s c)
    (hs : s.step c = some s') (hr' : r' ∈ s.live) (hv' : v' < userPages)
    (hhole : ∀ a r, c.Maps a v' → s.live[a]? = some r → ¬ SameHole s.vm r r' v') :
    view s'.vm r' v' = view s.vm r' v' := by
  have hset := h.settled
  cases c with
  | create =>
    obtain ⟨r, vm, hc, rfl⟩ := step_create hs
    exact (hset.create_reshaped hc).1.view_eq hset.toShape hr' hv'
  | map a virt content flags =>
    obtain ⟨r, phys, vm₁, vm, ha, halloc, hm, rfl⟩ := step_map hs
    have hr := List.mem_of_getElem? ha
    obtain ⟨h₂, -⟩ := hset.allocFilled halloc content
    rw [← hset.view_alloc_setFrame hr' hv' halloc content]
    refine h₂.view_map_eq hr hok hm hr' hv' ?_
    rintro rfl ⟨k, hk, u, hu, hu', hp⟩
    rw [hset.frameAt_allocFilled hr hv' halloc content (by omega)] at hu
    rw [hset.frameAt_allocFilled hr' hv' halloc content (by omega)] at hu'
    rw [Vm.entry_congr (hset.mem_allocFilled hr hv' halloc content (by omega) hu)] at hp
    exact hhole a r (.fresh content flags) ha ⟨k, hk, u, hu, hu', hp⟩
  | mapDevice a virt phys flags =>
    obtain ⟨r, vm, ha, hm, rfl⟩ := step_mapDevice hs
    refine hset.view_map_eq (List.mem_of_getElem? ha) hok.1 hm hr' hv' ?_
    rintro rfl
    exact hhole a r (.device phys flags) ha
  | clone a =>
    obtain ⟨r, n, vm, ha, hc, rfl⟩ := step_clone hs
    obtain ⟨-, -, hresh, -⟩ := hset.clone (List.mem_of_getElem? ha) hok hc
    exact hresh.view_eq hset.toShape hr' hv'
  | triggerCow a virt =>
    obtain ⟨r, b, vm, ha, hc, rfl⟩ := step_triggerCow hs
    obtain ⟨base', pos', -, hresh, -⟩ := hset.triggerCow (List.mem_of_getElem? ha) hok hc
    exact hresh.view_eq hset.toShape hr' hv'
  | destroy => exact hok.elim

end Spaces

/-- What a thread does next. -/
inductive FaultPc
  /-- in user mode -/
  | user
  /-- in `handlePageFault`, which has been called with this address and these flags -/
  | faulted (addr : UInt64) (flags : FaultFlags)
  /-- about to map a page with a frame, which is filled or left as it was allocated -/
  | filling (virt : ℕ) (content : Option (ℕ → BitVec 64)) (flags : MapFlags)
  /-- in the loop of `fb_map` -/
  | mapping (i : ℕ)
  /-- it has ended, or its process has been killed -/
  | ended

/-- The page was there when the thread faulted. -/
def FaultPc.foundPresent : FaultPc → Bool
  | .faulted _ flags => flags.present
  | _ => true

/-- The address spaces, the stacks and loaders of their processes, and the threads. -/
structure Faulting (τ : Type) where
  spaces : Spaces
  procs : List (StackList × Loader)
  space : τ → Option ℕ
  pc : τ → FaultPc

namespace Faulting

/-- How the handler goes on. -/
inductive Outcome
  | fail
  | ended
  | cow
  | fill (content : Option (ℕ → BitVec 64)) (flags : MapFlags)

/-- The choice that `handlePageFault` makes. -/
def outcome (p : StackList × Loader) (addr : UInt64) (flags : FaultFlags) : Outcome :=
  if flags.reserved then .fail
  else if addr = FaultProc.exitAddr ∧ flags.code then .ended
  else if !FaultProc.checkIfValid addr then .ended
  else if flags.present && flags.write then .cow
  else if p.1.isValidStackAddr addr.toNat then .fill none FaultProc.stackFlags
  else match p.2.segment addr with
    | none => .ended
    | some e => .fill (some (p.2.pageContent e addr)) (Loader.mapFlags e)

/-- The steps of the threads. -/
inductive Event (τ : Type)
  /-- a new process with its first thread -/
  | exec (l : Loader) (t : τ)
  /-- a thread starts another one -/
  | spawn (t t' : τ)
  /-- a thread allocates or releases a stack of its process -/
  | stack (t : τ) (c : StackList.Call)
  /-- `fork`, which starts the first thread of the child -/
  | fork (t t' : τ)
  /-- an access that is not permitted -/
  | fault (t : τ) (addr : UInt64) (a : UserAccess)
  | dispatch (t : τ)
  | fill (t : τ)
  /-- `fb_info(1)` -/
  | fbInfo (t : τ)
  | fbMap (t : τ)

variable {τ : Type}

def init (vm : Vm) : Faulting τ := ⟨Spaces.initial vm, [], fun _ => none, fun _ => .user⟩

def goto [DecidableEq τ] (s : Faulting τ) (t : τ) (pc : FaultPc) : Faulting τ :=
  { s with pc := Function.update s.pc t pc }

/-- A thread that has not existed yet starts in user mode. -/
def start [DecidableEq τ] (s : Faulting τ) (t : τ) (a : ℕ) : Option (Faulting τ) :=
  if s.space t = none then
    some { s with space := Function.update s.space t (some a), pc := Function.update s.pc t .user }
  else none

/-- A call on the address spaces. -/
def call (s : Faulting τ) (c : Spaces.Call) : Option (Faulting τ) :=
  (s.spaces.step c).map fun spaces => { s with spaces }

/-- The frame that `alloc` is about to return, as it is. -/
def stale (s : Faulting τ) : ℕ → BitVec 64 :=
  match s.spaces.vm.alloc with
  | some (f, _) => s.spaces.vm.mem f
  | none => fun _ => 0

instance {s : Vm} {pml4 : ℕ} {addr : UInt64} {a : UserAccess} :
    Decidable (Permits s pml4 addr a) :=
  decidable_of_iff ((translate s pml4 (pageNumber addr)).any a.allowed = true) <| by
    rw [Option.any_eq_true]
    rfl

def step [DecidableEq τ] (fb : Framebuffer) (s : Faulting τ) : Event τ → Option (Faulting τ)
  | .exec l t => do
    let s₁ ← s.call .create
    { s₁ with procs := s.procs ++ [(StackList.empty, l)] }.start t s.procs.length
  | .spawn t t' => match s.pc t, s.space t with
    | .user, some a => s.start t' a
    | _, _ => none
  | .stack t c => match s.pc t, s.space t with
    | .user, some a => do
      let p ← s.procs[a]?
      let stackList ← p.1.step c
      return { s with procs := s.procs.set a (stackList, p.2) }
    | _, _ => none
  | .fork t t' => match s.pc t, s.space t with
    | .user, some a => do
      let p ← s.procs[a]?
      let s₁ ← s.call (.clone a)
      { s₁ with procs := s.procs ++ [p] }.start t' s.procs.length
    | _, _ => none
  | .fault t addr a => match s.pc t, s.space t with
    | .user, some n => do
      let r ← s.spaces.live[n]?
      if Permits s.spaces.vm r addr a then none
      else some (s.goto t (.faulted addr (faultFlags s.spaces.vm r addr a)))
    | _, _ => none
  | .dispatch t => match s.pc t, s.space t with
    | .faulted addr flags, some a => do
      let p ← s.procs[a]?
      match outcome p addr flags with
      | .fail => none
      | .ended => some (s.goto t .ended)
      | .cow => (s.call (.triggerCow a (pageNumber addr))).map fun s => s.goto t .user
      | .fill content mflags => some (s.goto t (.filling (pageNumber addr) content mflags))
    | _, _ => none
  | .fill t => match s.pc t, s.space t with
    | .filling virt content flags, some a =>
      (s.call (.map a virt (content.getD s.stale) flags)).map fun s => s.goto t .user
    | _, _ => none
  | .fbInfo t => match s.pc t, s.space t with
    | .user, some _ => some (s.goto t (if 0 < fb.pageCount then .mapping 0 else .user))
    | _, _ => none
  | .fbMap t => match s.pc t, s.space t with
    | .mapping i, some a =>
      (s.call (.mapDevice a (framebufferAddr / 4096 + i) (fb.startPage + i)
        Framebuffer.flags)).map fun s =>
          s.goto t (if i + 1 < fb.pageCount then .mapping (i + 1) else .user)
    | _, _ => none

/-- The steps of the handler, taken one after the other. -/
theorem handlePageFault_eq_outcome (p : FaultProc) (addr : UInt64) (flags : FaultFlags) (s : Vm) :
    p.handlePageFault addr flags s = match outcome (p.stackList, p.loader) addr flags with
      | .fail => none
      | .ended => some (if addr = FaultProc.exitAddr ∧ flags.code then .exited else .killed)
      | .cow => (triggerCow p.addrSpace (pageNumber addr) s).map fun r => .resumed r.2
      | .fill content mflags => (s.alloc.bind fun r => AddrSpace.map p.addrSpace (pageNumber addr)
          r.1 mflags (r.2.setFrame r.1 (content.getD (s.mem r.1)))).map .resumed := by
  rw [FaultProc.handlePageFault, outcome]
  by_cases hres : flags.reserved = true
  · simp only [if_pos hres]
  by_cases hexit : addr = FaultProc.exitAddr ∧ flags.code = true
  · simp only [if_neg hres, if_pos hexit]
  by_cases hvalid : (!FaultProc.checkIfValid addr) = true
  · simp only [if_neg hres, if_neg hexit, if_pos hvalid]
  by_cases hcow : (flags.present && flags.write) = true
  · simp only [if_neg hres, if_neg hexit, if_neg hvalid, if_pos hcow]
  by_cases hstack : p.stackList.isValidStackAddr addr.toNat = true
  · simp only [if_neg hres, if_neg hexit, if_neg hvalid, if_neg hcow, if_pos hstack]
    cases ha : s.alloc with
    | none => rfl
    | some r =>
      have hsame : r.2.setFrame r.1 (s.mem r.1) = r.2 := by
        rw [← (Vm.alloc_eq_some ha).1, Vm.setFrame, Function.update_eq_self]
      cases hm : AddrSpace.map p.addrSpace (pageNumber addr) r.1 FaultProc.stackFlags r.2 <;>
        simp [hsame, hm]
  simp only [if_neg hres, if_neg hexit, if_neg hvalid, if_neg hcow, if_neg hstack,
    Loader.load_eq]
  cases hseg : p.loader.segment addr with
  | none => rfl
  | some e =>
    have hload : s.alloc.bind (fun r => AddrSpace.map p.addrSpace (pageNumber addr) r.1
        (Loader.mapFlags e) (r.2.setFrame r.1 (p.loader.pageContent e addr))) =
          p.loader.loadPage e addr p.addrSpace s :=
      (Loader.loadPage_eq _ _ _ _ _).symm
    simp only [Option.getD_some, hload]
    cases p.loader.loadPage e addr p.addrSpace s <;> rfl

/-- The thread is between a fault at a missing page, or the call of `fb_map`, and the call of
`map` for the page. -/
def About (fb : Framebuffer) (s : Faulting τ) (t : τ) (virt : ℕ) : Prop :=
  match s.pc t with
  | .faulted addr flags => FaultProc.checkIfValid addr = true ∧ flags.present = false ∧
      virt = pageNumber addr
  | .filling v _ _ => virt = v
  | .mapping i => ∃ j, i ≤ j ∧ j < fb.pageCount ∧ virt = framebufferAddr / 4096 + j
  | _ => False

/-- The thread is about to call `map` for the page. -/
def Maps (s : Faulting τ) (t : τ) (virt : ℕ) : Prop :=
  match s.pc t with
  | .filling v _ _ => virt = v
  | .mapping i => virt = framebufferAddr / 4096 + i
  | _ => False

/-- The call of `map` that a thread is about to make finds the entry of the page absent. -/
def FindsAbsent (s : Faulting τ) : Prop :=
  ∀ t a r virt, s.Maps t virt → s.space t = some a → s.spaces.live[a]? = some r →
    ∀ u, frameAt s.spaces.vm r virt 3 = some u →
      present (s.spaces.vm.entry u (tableIndex 0 virt)) = false

/-- No other thread is about to map the page where it is missing from the same entry. -/
def Alone (fb : Framebuffer) (s : Faulting τ) (t : τ) (virt : ℕ) : Prop :=
  ∀ t' ≠ t, ∀ a a' r r', s.About fb t' virt → s.space t = some a → s.space t' = some a' →
    s.spaces.live[a]? = some r → s.spaces.live[a']? = some r' →
    ¬ SameHole s.spaces.vm r r' virt

/-- The steps that do no harm. There are fewer than 256 address spaces. A fault that ends in a
mapping was at a missing page. The framebuffer is device memory, and not mapped when `fb_info`
is called. Nobody else is about to map what a thread maps. -/
def Undisturbed (vm₀ : Vm) (fb : Framebuffer) (s : Faulting τ) : Event τ → Prop
  | .exec .. | .fork .. => s.spaces.live.length + 1 < 256
  | .dispatch t => ∀ addr flags a p content mflags, s.pc t = .faulted addr flags →
      s.space t = some a → s.procs[a]? = some p →
      outcome p addr flags = .fill content mflags → flags.present = false
  | .fill t => ∀ virt, s.Maps t virt → s.Alone fb t virt
  | .fbInfo t => ∀ a r i, s.space t = some a → s.spaces.live[a]? = some r → i < fb.pageCount →
      view s.spaces.vm r (framebufferAddr / 4096 + i) = none
  | .fbMap t => ∀ i, s.pc t = .mapping i →
      Spaces.DeviceFrame vm₀ (fb.startPage + i) Framebuffer.flags ∧
        s.Alone fb t (framebufferAddr / 4096 + i)
  | _ => True

/-- Every page that a thread is about to map is missing. -/
structure Inv (vm₀ : Vm) (fb : Framebuffer) (s : Faulting τ) : Prop where
  lawful : ∃ base pos, Spaces.LawfulInv vm₀ s.spaces base pos
  procs : s.procs.length = s.spaces.live.length
  placed : ∀ t a, s.space t = some a → a < s.spaces.live.length
  looping : ∀ t i, s.pc t = .mapping i → i < fb.pageCount
  absent : ∀ t a r virt, s.About fb t virt → s.space t = some a → s.spaces.live[a]? = some r →
    virt < userPages ∧ view s.spaces.vm r virt = none

variable {vm₀ : Vm} {fb : Framebuffer} {s s' : Faulting τ} {t : τ} {virt : ℕ}

theorem about_congr (h : s'.pc t = s.pc t) : s'.About fb t virt ↔ s.About fb t virt := by
  rw [About, About, h]

theorem Maps.about (h : s.Maps t virt) (hi : ∀ i, s.pc t = .mapping i → i < fb.pageCount) :
    s.About fb t virt := by
  revert h
  rw [Maps, About]
  cases hpc : s.pc t with
  | filling v content flags => exact id
  | mapping i => exact fun h => ⟨i, le_rfl, hi i hpc, h⟩
  | _ => exact False.elim

section Step

variable [DecidableEq τ] {a : ℕ} {pc : FaultPc}

@[simp] theorem goto_pc_self : (s.goto t pc).pc t = pc := Function.update_self ..

theorem goto_pc_of_ne {u : τ} (h : u ≠ t) : (s.goto t pc).pc u = s.pc u :=
  Function.update_of_ne h ..

theorem step_spawn {t' : τ} (hs : s.step fb (.spawn t t') = some s') :
    ∃ a, s.pc t = .user ∧ s.space t = some a ∧ s.start t' a = some s' := by
  rw [step] at hs
  split at hs
  · rename_i a hpc hspace
    exact ⟨a, hpc, hspace, hs⟩
  · cases hs

theorem step_stack {c : StackList.Call} (hs : s.step fb (.stack t c) = some s') :
    ∃ a p stackList, s.pc t = .user ∧ s.space t = some a ∧ s.procs[a]? = some p ∧
      p.1.step c = some stackList ∧ s' = { s with procs := s.procs.set a (stackList, p.2) } := by
  rw [step] at hs
  split at hs
  · rename_i a hpc hspace
    simp only [Option.bind_eq_bind, Option.bind_eq_some_iff, Option.pure_def,
      Option.some.injEq] at hs
    obtain ⟨p, hp, stackList, hc, rfl⟩ := hs
    exact ⟨a, p, stackList, hpc, hspace, hp, hc, rfl⟩
  · cases hs

theorem step_fork {t' : τ} (hs : s.step fb (.fork t t') = some s') :
    ∃ a p, s.pc t = .user ∧ s.space t = some a ∧ s.procs[a]? = some p ∧
      (s.call (.clone a)).bind (fun s₁ =>
        { s₁ with procs := s.procs ++ [p] }.start t' s.procs.length) = some s' := by
  rw [step] at hs
  split at hs
  · rename_i a hpc hspace
    rw [Option.bind_eq_bind, Option.bind_eq_some_iff] at hs
    obtain ⟨p, hp, hs⟩ := hs
    exact ⟨a, p, hpc, hspace, hp, hs⟩
  · cases hs

theorem step_fault {addr : UInt64} {acc : UserAccess}
    (hs : s.step fb (.fault t addr acc) = some s') :
    ∃ n r, s.pc t = .user ∧ s.space t = some n ∧ s.spaces.live[n]? = some r ∧
      s' = s.goto t (.faulted addr (faultFlags s.spaces.vm r addr acc)) := by
  rw [step] at hs
  split at hs
  · rename_i n hpc hspace
    rw [Option.bind_eq_bind, Option.bind_eq_some_iff] at hs
    obtain ⟨r, hr, hs⟩ := hs
    rw [Option.ite_none_left_eq_some, Option.some.injEq] at hs
    exact ⟨n, r, hpc, hspace, hr, hs.2.symm⟩
  · cases hs

theorem step_dispatch (hs : s.step fb (.dispatch t) = some s') :
    ∃ addr flags a p, s.pc t = .faulted addr flags ∧ s.space t = some a ∧ s.procs[a]? = some p ∧
      (outcome p addr flags = .ended ∧ s' = s.goto t .ended ∨
        outcome p addr flags = .cow ∧
          (s.call (.triggerCow a (pageNumber addr))).map (fun s => s.goto t .user) = some s' ∨
        ∃ content mflags, outcome p addr flags = .fill content mflags ∧
          s' = s.goto t (.filling (pageNumber addr) content mflags)) := by
  rw [step] at hs
  split at hs
  · rename_i addr flags a hpc hspace
    rw [Option.bind_eq_bind, Option.bind_eq_some_iff] at hs
    obtain ⟨p, hp, hs⟩ := hs
    refine ⟨addr, flags, a, p, hpc, hspace, hp, ?_⟩
    cases ho : outcome p addr flags with
    | fail => simp [ho] at hs
    | ended => exact .inl ⟨rfl, by simpa [ho] using hs.symm⟩
    | cow => exact .inr (.inl ⟨rfl, by simpa only [ho] using hs⟩)
    | fill content mflags => exact .inr (.inr ⟨content, mflags, rfl, by simpa [ho] using hs.symm⟩)
  · cases hs

theorem step_fill (hs : s.step fb (.fill t) = some s') :
    ∃ virt content flags a, s.pc t = .filling virt content flags ∧ s.space t = some a ∧
      (s.call (.map a virt (content.getD s.stale) flags)).map (fun s => s.goto t .user) =
        some s' := by
  rw [step] at hs
  split at hs
  · rename_i virt content flags a hpc hspace
    exact ⟨virt, content, flags, a, hpc, hspace, hs⟩
  · cases hs

theorem step_fbInfo (hs : s.step fb (.fbInfo t) = some s') :
    ∃ a, s.pc t = .user ∧ s.space t = some a ∧
      s' = s.goto t (if 0 < fb.pageCount then .mapping 0 else .user) := by
  rw [step] at hs
  split at hs
  · rename_i a hpc hspace
    exact ⟨a, hpc, hspace, (Option.some.inj hs).symm⟩
  · cases hs

theorem step_fbMap (hs : s.step fb (.fbMap t) = some s') :
    ∃ i a, s.pc t = .mapping i ∧ s.space t = some a ∧
      (s.call (.mapDevice a (framebufferAddr / 4096 + i) (fb.startPage + i)
        Framebuffer.flags)).map (fun s =>
          s.goto t (if i + 1 < fb.pageCount then .mapping (i + 1) else .user)) = some s' := by
  rw [step] at hs
  split at hs
  · rename_i i a hpc hspace
    exact ⟨i, a, hpc, hspace, hs⟩
  · cases hs

end Step

theorem about_faulted {addr : UInt64} {flags : FaultFlags} (h : s.pc t = .faulted addr flags) :
    s.About fb t virt ↔
      FaultProc.checkIfValid addr = true ∧ flags.present = false ∧ virt = pageNumber addr := by
  rw [About, h]

theorem about_filling {v : ℕ} {content : Option (ℕ → BitVec 64)} {flags : MapFlags}
    (h : s.pc t = .filling v content flags) : s.About fb t virt ↔ virt = v := by
  rw [About, h]

theorem about_mapping {i : ℕ} (h : s.pc t = .mapping i) :
    s.About fb t virt ↔ ∃ j, i ≤ j ∧ j < fb.pageCount ∧ virt = framebufferAddr / 4096 + j := by
  rw [About, h]

theorem not_about_user (h : s.pc t = .user) : ¬ s.About fb t virt := by
  rw [About, h]
  exact id

theorem not_about_ended (h : s.pc t = .ended) : ¬ s.About fb t virt := by
  rw [About, h]
  exact id

theorem checkIfValid_of_fill {p : StackList × Loader} {addr : UInt64} {flags : FaultFlags}
    {content : Option (ℕ → BitVec 64)} {mflags : MapFlags}
    (h : outcome p addr flags = .fill content mflags) : FaultProc.checkIfValid addr = true := by
  by_contra hvalid
  rw [Bool.not_eq_true] at hvalid
  simp only [outcome, hvalid, Bool.not_false, if_true] at h
  split_ifs at h

theorem checkIfValid_of_cow {p : StackList × Loader} {addr : UInt64} {flags : FaultFlags}
    (h : outcome p addr flags = .cow) : FaultProc.checkIfValid addr = true := by
  by_contra hvalid
  rw [Bool.not_eq_true] at hvalid
  simp only [outcome, hvalid, Bool.not_false, if_true] at h
  split_ifs at h

namespace Inv

theorem still (h : Inv vm₀ fb s) (hspaces : s'.spaces = s.spaces)
    (hprocs : s'.procs.length = s.procs.length)
    (hplaced : ∀ t a, s'.space t = some a → a < s.spaces.live.length)
    (hloop : ∀ t i, s'.pc t = .mapping i → i < fb.pageCount)
    (habout : ∀ t a r virt, s'.About fb t virt → s'.space t = some a →
      s.spaces.live[a]? = some r → s.About fb t virt ∧ s.space t = some a ∨
        virt < userPages ∧ view s.spaces.vm r virt = none) : Inv vm₀ fb s' where
  lawful := hspaces ▸ h.lawful
  procs := by rw [hprocs, hspaces, h.procs]
  placed := by rwa [hspaces]
  looping := hloop
  absent t a r virt ht hspace hr := by
    rw [hspaces] at hr ⊢
    rcases habout t a r virt ht hspace hr with ⟨hab, hsp⟩ | hgoal
    · exact h.absent t a r virt hab hsp hr
    · exact hgoal

theorem call {c : Spaces.Call} (h : Inv vm₀ fb s) (hok : Spaces.Lawful vm₀ s.spaces c)
    (hs : s.spaces.step c = some s'.spaces)
    (hprocs : s'.procs.length = s'.spaces.live.length)
    (hplaced : ∀ t a, s'.space t = some a → a < s'.spaces.live.length)
    (hloop : ∀ t i, s'.pc t = .mapping i → i < fb.pageCount)
    (habout : ∀ t a virt, s'.About fb t virt → s'.space t = some a →
      s.About fb t virt ∧ s.space t = some a ∧ ∀ b r r', c.Maps b virt →
        s.spaces.live[b]? = some r → s.spaces.live[a]? = some r' →
        ¬ SameHole s.spaces.vm r r' virt) : Inv vm₀ fb s' := by
  obtain ⟨base, pos, hinv⟩ := h.lawful
  refine ⟨hinv.step hok hs, hprocs, hplaced, hloop, fun t a r virt ht hspace hr => ?_⟩
  obtain ⟨hab, hsp, hhole⟩ := habout t a virt ht hspace
  obtain ⟨tail, htail⟩ := Spaces.live_step hok hs
  have hr' : s.spaces.live[a]? = some r := by
    rwa [← htail, List.getElem?_append_left (h.placed t a hsp)] at hr
  obtain ⟨hv, hview⟩ := h.absent t a r virt hab hsp hr'
  refine ⟨hv, ?_⟩
  rw [hinv.view_step hok hs (List.mem_of_getElem? hr') hv fun b r₁ hmaps hb =>
    hhole b r₁ r hmaps hb hr', hview]

theorem init (vm : Vm) (fb : Framebuffer) : Inv vm fb (Faulting.init vm : Faulting τ) where
  lawful := ⟨_, _, .initial vm⟩
  procs := rfl
  placed _ _ h := by cases h
  looping _ _ h := by cases h
  absent _ _ _ _ _ h := by cases h

theorem findsAbsent (h : Inv vm₀ fb s) : s.FindsAbsent := by
  intro t a r virt hmaps hspace hr u hu
  obtain ⟨-, hview⟩ := h.absent t a r virt (hmaps.about (h.looping t)) hspace hr
  by_contra hp
  have hf := frameAt_succ_eq_some_iff.mpr ⟨u, hu, (Bool.not_eq_false _).mp hp, rfl⟩
  rw [frameAt_four_of_view hview] at hf
  cases hf

section Step

variable [DecidableEq τ] {e : Event τ}

theorem start_eq_some {a : ℕ} (hs : s.start t a = some s') :
    s.space t = none ∧ s'.spaces = s.spaces ∧ s'.procs = s.procs ∧ s'.pc t = .user ∧
      s'.space t = some a ∧ ∀ u, u ≠ t → s'.pc u = s.pc u ∧ s'.space u = s.space u := by
  rw [Faulting.start, Option.ite_none_right_eq_some, Option.some.injEq] at hs
  obtain ⟨hnone, rfl⟩ := hs
  refine ⟨hnone, rfl, rfl, Function.update_self .., Function.update_self .., fun u hu => ?_⟩
  exact ⟨Function.update_of_ne hu .., Function.update_of_ne hu ..⟩

/-- A new process. -/
theorem created {c : Spaces.Call} {p : StackList × Loader} (h : Inv vm₀ fb s)
    (hok : Spaces.Lawful vm₀ s.spaces c) (hc : ∀ b v, ¬ c.Maps b v)
    (hs : (s.call c).bind (fun s₁ => { s₁ with procs := s.procs ++ [p] }.start t s.procs.length) =
      some s')
    (hlive : ∀ spaces, s.spaces.step c = some spaces →
      spaces.live.length = s.spaces.live.length + 1) : Inv vm₀ fb s' := by
  simp only [Faulting.call, Option.bind_eq_some_iff, Option.map_eq_some_iff] at hs
  obtain ⟨_, ⟨spaces, hstep, rfl⟩, hstart⟩ := hs
  obtain ⟨hnone, hspaces, hprocs, hpc, hspace, hother⟩ := start_eq_some hstart
  simp only at hspaces hprocs hnone
  have hlen := hlive spaces hstep
  have hold : ∀ u, s'.pc u ≠ .user → u ≠ t := by
    rintro u hu rfl
    exact hu hpc
  refine h.call hok (hspaces ▸ hstep) ?_ ?_ ?_ ?_
  · rw [hprocs, hspaces, hlen, ← h.procs]
    simp
  · intro u a hu
    rw [hspaces, hlen]
    rcases eq_or_ne u t with rfl | hne
    · rw [hspace] at hu
      cases hu
      rw [h.procs]
      omega
    · have := h.placed u a ((hother u hne).2 ▸ hu)
      omega
  · intro u i hu
    have hne := hold u (by rw [hu]; nofun)
    exact h.looping u i ((hother u hne).1 ▸ hu)
  · intro u a virt hab hu
    have hne : u ≠ t := by
      rintro rfl
      rw [About, hpc] at hab
      exact hab
    exact ⟨(about_congr (hother u hne).1).mp hab, (hother u hne).2 ▸ hu,
      fun b _ _ hmaps => absurd hmaps (hc b virt)⟩

theorem goto {pc : FaultPc} (h : Inv vm₀ fb s) (hloop : ∀ i, pc = .mapping i → i < fb.pageCount)
    (habout : ∀ a r virt, (s.goto t pc).About fb t virt → s.space t = some a →
      s.spaces.live[a]? = some r → s.About fb t virt ∨
        virt < userPages ∧ view s.spaces.vm r virt = none) : Inv vm₀ fb (s.goto t pc) := by
  refine h.still rfl rfl h.placed (fun u i hu => ?_) fun u a r virt hab hspace hr => ?_
  · rcases eq_or_ne u t with rfl | hne
    · exact hloop i (goto_pc_self.symm.trans hu)
    · exact h.looping u i ((goto_pc_of_ne hne).symm.trans hu)
  · rcases eq_or_ne u t with rfl | hne
    · exact (habout a r virt hab hspace hr).imp_left (⟨·, hspace⟩)
    · exact .inl ⟨(about_congr (goto_pc_of_ne hne)).mp hab, hspace⟩

theorem call_goto {c : Spaces.Call} {a : ℕ} (h : Inv vm₀ fb s) (pc : FaultPc)
    (hok : Spaces.Lawful vm₀ s.spaces c)
    (hlive : ∀ spaces, s.spaces.step c = some spaces → spaces.live = s.spaces.live)
    (hmaps : ∀ b virt, c.Maps b virt → b = a ∧ s.Alone fb t virt) (hspace : s.space t = some a)
    (hloop : ∀ i, pc = .mapping i → i < fb.pageCount)
    (habout : ∀ virt, (s.goto t pc).About fb t virt →
      s.About fb t virt ∧ ∀ b, ¬ c.Maps b virt)
    (hs : (s.call c).map (fun s => s.goto t pc) = some s') : Inv vm₀ fb s' := by
  simp only [Faulting.call, Option.map_map, Option.map_eq_some_iff, Function.comp] at hs
  obtain ⟨spaces, hstep, rfl⟩ := hs
  have hsame := hlive spaces hstep
  refine h.call hok hstep ?_ ?_ (fun u i hu => ?_) fun u b virt hab hu => ?_
  · exact h.procs.trans (congrArg List.length hsame.symm)
  · intro u b hu
    exact (h.placed u b hu).trans_eq (congrArg List.length hsame.symm)
  · rcases eq_or_ne u t with rfl | hne
    · exact hloop i (goto_pc_self.symm.trans hu)
    · exact h.looping u i ((goto_pc_of_ne (s := { s with spaces }) hne).symm.trans hu)
  · rcases eq_or_ne u t with rfl | hne
    · obtain ⟨hold, hnot⟩ := habout virt ((about_congr (by simp only [goto_pc_self])).mp hab)
      exact ⟨hold, hu, fun b' _ _ hm => absurd hm (hnot b')⟩
    · have hold : s.About fb u virt :=
        (about_congr (goto_pc_of_ne (s := { s with spaces }) hne)).mp hab
      refine ⟨hold, hu, fun b' r r' hm hb' hb => ?_⟩
      obtain ⟨rfl, halone⟩ := hmaps b' virt hm
      exact halone u hne b' b r r' hold hspace hu hb' hb

theorem step_exec {l : Loader} (h : Inv vm₀ fb s) (hok : s.spaces.live.length + 1 < 256)
    (hs : s.step fb (.exec l t) = some s') : Inv vm₀ fb s' := by
  refine h.created (c := .create) hok (fun _ _ => nofun) hs fun spaces hstep => ?_
  obtain ⟨r, vm, -, rfl⟩ := Spaces.step_create hstep
  simp

theorem step_spawn {t' : τ} (h : Inv vm₀ fb s) (hs : s.step fb (.spawn t t') = some s') :
    Inv vm₀ fb s' := by
  obtain ⟨a, hpc, hspace, hstart⟩ := Faulting.step_spawn hs
  obtain ⟨hnone, hspaces, hprocs, hpc', hspace', hother⟩ := start_eq_some hstart
  refine h.still hspaces (congrArg List.length hprocs) (fun u b hu => ?_) (fun u i hu => ?_)
    fun u b r virt hab hu _ => ?_
  · rcases eq_or_ne u t' with rfl | hne
    · rw [hspace', Option.some.injEq] at hu
      exact hu ▸ h.placed t a hspace
    · exact h.placed u b ((hother u hne).2 ▸ hu)
  · rcases eq_or_ne u t' with rfl | hne
    · rw [hpc'] at hu
      cases hu
    · exact h.looping u i ((hother u hne).1 ▸ hu)
  · rcases eq_or_ne u t' with rfl | hne
    · exact absurd hab (not_about_user hpc')
    · exact .inl ⟨(about_congr (hother u hne).1).mp hab, (hother u hne).2 ▸ hu⟩

theorem step_stack {c : StackList.Call} (h : Inv vm₀ fb s)
    (hs : s.step fb (.stack t c) = some s') : Inv vm₀ fb s' := by
  obtain ⟨a, p, stackList, -, -, -, -, rfl⟩ := Faulting.step_stack hs
  exact h.still rfl List.length_set h.placed h.looping fun u b r virt hab hu _ => .inl ⟨hab, hu⟩

theorem step_fork {t' : τ} (h : Inv vm₀ fb s) (hok : s.spaces.live.length + 1 < 256)
    (hs : s.step fb (.fork t t') = some s') : Inv vm₀ fb s' := by
  obtain ⟨a, p, -, -, -, hs⟩ := Faulting.step_fork hs
  refine h.created (c := .clone a) hok (fun _ _ => nofun) hs fun spaces hstep => ?_
  obtain ⟨r, n, vm, -, -, rfl⟩ := Spaces.step_clone hstep
  simp

theorem step_fault {addr : UInt64} {acc : UserAccess} (h : Inv vm₀ fb s)
    (hs : s.step fb (.fault t addr acc) = some s') : Inv vm₀ fb s' := by
  obtain ⟨n, r, -, hspace, hr, rfl⟩ := Faulting.step_fault hs
  refine h.goto (fun _ => nofun) fun a r' virt hab hspace' hr' => .inr ?_
  obtain rfl : n = a := Option.some.inj (hspace.symm.trans hspace')
  obtain rfl : r = r' := Option.some.inj (hr.symm.trans hr')
  obtain ⟨hvalid, habsent, rfl⟩ := (about_faulted goto_pc_self).mp hab
  refine ⟨FaultProc.lt_userPages hvalid, ?_⟩
  rw [faultFlags, FaultProc.isSome_walk] at habsent
  exact Option.isSome_eq_false_iff.mp habsent |> Option.isNone_iff_eq_none.mp

theorem step_dispatch (h : Inv vm₀ fb s) (hok : Undisturbed vm₀ fb s (.dispatch t))
    (hs : s.step fb (.dispatch t) = some s') : Inv vm₀ fb s' := by
  obtain ⟨addr, flags, a, p, hpc, hspace, hp, hout⟩ := Faulting.step_dispatch hs
  obtain ⟨-, rfl⟩ | ⟨hcow, hs⟩ | ⟨content, mflags, hfill, rfl⟩ := hout
  · exact h.goto (fun _ => nofun) fun a r virt hab => absurd hab (not_about_ended goto_pc_self)
  · refine h.call_goto .user (c := .triggerCow a (pageNumber addr)) (a := a)
      (FaultProc.lt_userPages (checkIfValid_of_cow hcow)) (fun spaces hstep => ?_)
      (fun _ _ => nofun) hspace (fun _ => nofun)
      (fun virt hab => absurd hab (not_about_user goto_pc_self)) hs
    obtain ⟨r, b, vm, -, -, rfl⟩ := Spaces.step_triggerCow hstep
    rfl
  · refine h.goto (fun _ => nofun) fun a r virt hab _ _ => .inl ?_
    rw [(about_filling goto_pc_self).mp hab, about_faulted hpc]
    exact ⟨checkIfValid_of_fill hfill, hok addr flags _ p content mflags hpc hspace hp hfill, rfl⟩

theorem step_fill (h : Inv vm₀ fb s) (hok : Undisturbed vm₀ fb s (.fill t))
    (hs : s.step fb (.fill t) = some s') : Inv vm₀ fb s' := by
  obtain ⟨virt, content, flags, a, hpc, hspace, hs⟩ := Faulting.step_fill hs
  have hr := List.getElem?_eq_getElem (h.placed t a hspace)
  have hab : s.About fb t virt := (about_filling hpc).mpr rfl
  have hv := (h.absent t a _ virt hab hspace hr).1
  refine h.call_goto .user (c := .map a virt (content.getD s.stale) flags) (a := a) hv
    (fun spaces hstep => ?_) (fun b v hm => ?_) hspace (fun _ => nofun)
    (fun v hab => absurd hab (not_about_user goto_pc_self)) hs
  · obtain ⟨r, phys, vm₁, vm, -, -, -, rfl⟩ := Spaces.step_map hstep
    rfl
  · cases hm
    exact ⟨rfl, hok virt (by rw [Maps, hpc])⟩

theorem step_fbInfo (h : Inv vm₀ fb s) (hok : Undisturbed vm₀ fb s (.fbInfo t))
    (hs : s.step fb (.fbInfo t) = some s') : Inv vm₀ fb s' := by
  obtain ⟨a, hpc, hspace, rfl⟩ := Faulting.step_fbInfo hs
  by_cases hpos : 0 < fb.pageCount
  · rw [if_pos hpos]
    refine h.goto (fun i hi => ?_) fun a r virt hab hspace' hr => .inr ?_
    · cases hi
      exact hpos
    · obtain ⟨j, -, hj, rfl⟩ := (about_mapping goto_pc_self).mp hab
      exact ⟨Framebuffer.page_lt_userPages hj, hok a r j hspace' hr hj⟩
  · rw [if_neg hpos]
    exact h.goto (fun _ => nofun) fun a r virt hab => absurd hab (not_about_user goto_pc_self)

theorem step_fbMap (h : Inv vm₀ fb s) (hok : Undisturbed vm₀ fb s (.fbMap t))
    (hs : s.step fb (.fbMap t) = some s') : Inv vm₀ fb s' := by
  obtain ⟨i, a, hpc, hspace, hs⟩ := Faulting.step_fbMap hs
  obtain ⟨hdev, halone⟩ := hok i hpc
  have hi := h.looping t i hpc
  refine h.call_goto _ (c := .mapDevice a (framebufferAddr / 4096 + i) (fb.startPage + i)
    Framebuffer.flags) (a := a) ⟨Framebuffer.page_lt_userPages hi, hdev⟩ (fun spaces hstep => ?_)
    (fun b virt hm => ?_) hspace (fun j hj => ?_) (fun virt hab => ?_) hs
  · obtain ⟨r, vm, -, -, rfl⟩ := Spaces.step_mapDevice hstep
    rfl
  · cases hm
    exact ⟨rfl, halone⟩
  · split_ifs at hj with hlt
    cases hj
    exact hlt
  · by_cases hlt : i + 1 < fb.pageCount
    · rw [if_pos hlt, about_mapping goto_pc_self] at hab
      obtain ⟨j, hij, hj, rfl⟩ := hab
      refine ⟨(about_mapping hpc).mpr ⟨j, by omega, hj, rfl⟩, fun b hm => ?_⟩
      generalize hv : framebufferAddr / 4096 + j = v at hm
      cases hm
      omega
    · rw [if_neg hlt] at hab
      exact absurd hab (not_about_user goto_pc_self)

theorem step (h : Inv vm₀ fb s) (hok : Undisturbed vm₀ fb s e) (hs : s.step fb e = some s') :
    Inv vm₀ fb s' := by
  cases e with
  | exec l t => exact h.step_exec hok hs
  | spawn t t' => exact h.step_spawn hs
  | stack t c => exact h.step_stack hs
  | fork t t' => exact h.step_fork hok hs
  | fault t addr a => exact h.step_fault hs
  | dispatch t => exact h.step_dispatch hok hs
  | fill t => exact h.step_fill hok hs
  | fbInfo t => exact h.step_fbInfo hok hs
  | fbMap t => exact h.step_fbMap hok hs

end Step

theorem reachable [DecidableEq τ] {vm : Vm}
    (h : Run.Reachable (Faulting.step fb) (Undisturbed vm fb) (Faulting.init vm) s) :
    Inv vm fb s :=
  h.invariant (.init vm fb) fun _ _ _ hinv hok hs => hinv.step hok hs

end Inv

/-- In a run without a disturbance `map` is never called for a page that is there. -/
theorem findsAbsent_of_undisturbed [DecidableEq τ] (vm : Vm) (fb : Framebuffer) (s : Faulting τ)
    (h : Run.Reachable (step fb) (Undisturbed vm fb) (init vm) s) : s.FindsAbsent :=
  (Inv.reachable h).findsAbsent

instance : Decidable (s.Maps t virt) :=
  match h : s.pc t with
  | .filling v _ _ => decidable_of_iff (virt = v) (by rw [Maps, h])
  | .mapping i => decidable_of_iff (virt = framebufferAddr / 4096 + i) (by rw [Maps, h])
  | .user | .faulted _ _ | .ended => isFalse (by rw [Maps, h]; exact id)

def noFramebuffer : Framebuffer := ⟨0, 0, 0, 0, 0⟩

/-- A thread fetches the first instruction of its program. -/
def fetch : List (Event ℕ) := [.exec (.ofBinary Loader.program) 0, .fault 0 0x400123 .fetch]

def fetched : Faulting ℕ :=
  (fetch.foldlM (step noFramebuffer) (init (Spaces.blank 16))).get (by decide +kernel)

def fetchedMapping : Faulting ℕ :=
  (fetched.step noFramebuffer (.dispatch 0)).get (by decide +kernel)

/-- Two threads do so, before the first one has mapped the page. -/
def fetchedTwice : Faulting ℕ :=
  ([.exec (.ofBinary Loader.program) 0, .spawn 0 1, .fault 0 0x400123 .fetch,
    .fault 1 0x400123 .fetch, .dispatch 0, .dispatch 1, .fill 0].foldlM
    (step noFramebuffer) (init (Spaces.blank 16))).get (by decide +kernel)

theorem findsAbsent_fetchedMapping : fetchedMapping.Maps 0 0x400 ∧ fetchedMapping.FindsAbsent := by
  refine ⟨by decide +kernel, findsAbsent_of_undisturbed (Spaces.blank 16) noFramebuffer _ ?_⟩
  have hguard : Run.Guarded (step noFramebuffer) (Undisturbed (Spaces.blank 16) noFramebuffer)
      (init (Spaces.blank 16)) fetch :=
    ⟨show 0 + 1 < 256 by decide, fun _ _ => ⟨trivial, fun _ _ => trivial⟩⟩
  have hrun : Run.Reachable (step noFramebuffer) (Undisturbed (Spaces.blank 16) noFramebuffer)
      (init (Spaces.blank 16)) fetched :=
    hguard.reachable (Option.some_get _).symm
  refine .step (i := .dispatch 0) hrun ?_ (Option.some_get _).symm
  intro addr flags a p content mflags hpc _ _ _
  have habsent : (fetched.pc 0).foundPresent = false := by
    decide +kernel
  rwa [hpc] at habsent

/-- The second thread finds the page that the first one has mapped. -/
theorem not_forall_findsAbsent :
    ¬ ∀ (vm : Vm) (fb : Framebuffer) (s : Faulting ℕ),
      Run.Reachable (step fb) (fun _ _ => True) (init vm) s → s.FindsAbsent := by
  intro h
  have hrun : Run.Reachable (step noFramebuffer) (fun _ _ => True) (init (Spaces.blank 16))
      fetchedTwice :=
    Run.reachable_of_foldlM (Option.some_get _).symm
  have hpresent : (fetchedTwice.spaces.live[0]?).any (fun r =>
      (frameAt fetchedTwice.spaces.vm r 0x400 3).any fun u =>
        present (fetchedTwice.spaces.vm.entry u (tableIndex 0 0x400))) = true := by
    decide +kernel
  simp only [Option.any_eq_true] at hpresent
  obtain ⟨r, hr, u, hu, hpresent⟩ := hpresent
  have habsent := h _ _ _ hrun 1 0 r 0x400 (by decide +kernel) (by decide +kernel) hr u hu
  rw [hpresent] at habsent
  cases habsent

end Faulting

end Koerix
