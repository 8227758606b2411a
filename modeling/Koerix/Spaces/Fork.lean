import Koerix.Spaces.Basic

/-! # Copy-on-write fork refines eager fork

User code reads, writes and forks. A write goes to memory when all four entries
on its path allow it; otherwise it faults, the handler calls `triggerCow`, and
the access is tried again if that succeeded. In the abstract model a fork copies
all pages at once and address spaces have nothing in common. Both give the same
answers.
-/

namespace Koerix

open GenericPagingTable AddrSpace

/-- The byte at an offset of a page, whose words are little-endian. -/
def loadByte (content : ℕ → BitVec 64) (off : Fin 4096) : BitVec 8 :=
  .ofNat 8 (BitField.get (8 * (off % 8)) 8 (content (off / 8)))

def storeByte (content : ℕ → BitVec 64) (off : Fin 4096) (byte : BitVec 8) : ℕ → BitVec 64 :=
  Function.update content (off / 8)
    (BitField.set (8 * (off % 8)) 8 byte.toNat (content (off / 8)))

/-- What user code does, in the address space with the given index. -/
inductive UserOp
  | clone (a : ℕ)
  | read (a virt : ℕ) (off : Fin 4096)
  | write (a virt : ℕ) (off : Fin 4096) (byte : BitVec 8)

inductive Outcome
  | done
  | fault
  | byte (b : BitVec 8)
  deriving DecidableEq

namespace Spaces

/-- The frame that a user access to the page reaches, if the processor allows it. -/
def accessFrame (vm : Vm) (r virt : ℕ) (isWrite : Bool) : Option ℕ :=
  (translate vm r virt).bind fun t =>
    if t.user && (t.write || !isWrite) then some t.frame else none

def store (vm : Vm) (f : ℕ) (off : Fin 4096) (byte : BitVec 8) : Vm :=
  vm.setFrame f (storeByte (vm.mem f) off byte)

/-- One step of user code on the real tables. -/
def userStep (s : Spaces) : UserOp → Option (Spaces × Outcome)
  | .clone a => (s.step (.clone a)).map (·, .done)
  | .read a virt off => do
    let r ← s.live[a]?
    match accessFrame s.vm r virt false with
    | some f => return (s, .byte (loadByte (s.vm.mem f) off))
    | none => return (s, .fault)
  | .write a virt off byte => do
    let r ← s.live[a]?
    match accessFrame s.vm r virt true with
    | some f => return ({ s with vm := store s.vm f off byte }, .done)
    | none =>
      let (cow, vm) ← AddrSpace.triggerCow r virt s.vm
      match if cow then accessFrame vm r virt true else none with
      | some f => return ({ s with vm := store vm f off byte }, .done)
      | none => return ({ s with vm }, .fault)

/-- Accesses to the lower half, and fewer than 256 address spaces. -/
def UserLawful (s : Spaces) : UserOp → Prop
  | .clone _ => s.live.length + 1 < 256
  | .read _ virt _ | .write _ virt _ _ => virt < userPages

instance (s : Spaces) : DecidablePred (UserLawful s) := by
  intro o
  cases o <;> unfold UserLawful <;> infer_instance

end Spaces

/-- Address spaces as independent maps from virtual pages to pages. -/
abbrev Eager := List (ℕ → Option Page)

namespace Eager

/-- One step of user code where a fork copies everything. -/
def step (m : Eager) : UserOp → Option (Eager × Outcome)
  | .clone a => do
    let pages ← m[a]?
    return (m ++ [pages], .done)
  | .read a virt off => do
    let pages ← m[a]?
    match pages virt with
    | some p => return (m, if p.user then .byte (loadByte p.content off) else .fault)
    | none => return (m, .fault)
  | .write a virt off byte => do
    let pages ← m[a]?
    match pages virt with
    | some p =>
      if p.user && p.writable then
        let p' := { p with content := storeByte p.content off byte }
        return (m.set a (Function.update pages virt (some p')), .done)
      else return (m, .fault)
    | none => return (m, .fault)

theorem step_write_other {m m' : Eager} {out : Outcome} {a b virt : ℕ}
    {off : Fin 4096} {byte : BitVec 8} (hs : step m (.write a virt off byte) = some (m', out))
    (hb : b ≠ a) : m'[b]? = m[b]? := by
  simp only [step, Option.bind_eq_bind, Option.bind_eq_some_iff] at hs
  obtain ⟨pages, -, hs⟩ := hs
  split at hs
  · split_ifs at hs <;> cases hs
    · exact List.getElem?_set_ne hb.symm
    · rfl
  · cases hs
    rfl

end Eager

namespace Spaces

variable {vm₀ vm : Vm} {s s' : Spaces} {base : ℕ → ℕ} {pos : Positions}
  {a r f virt : ℕ} {w : Bool}

theorem accessFrame_eq_some_iff : accessFrame vm r virt w = some f ↔
    ∃ es, walk vm r virt = some es ∧ es.all user = true ∧ (w = true → es.all write = true) ∧
      ppn (es.getLastD 0) = f := by
  simp only [accessFrame, AddrSpace.translate, Option.bind_eq_some_iff, Option.map_eq_some_iff,
    Option.ite_none_right_eq_some, Option.some.injEq, exists_exists_and_eq_and, translationOf,
    Bool.and_eq_true]
  refine exists_congr fun es => and_congr_right fun _ => ?_
  cases w <;> simp [and_assoc]

theorem accessFrame_read (vm : Vm) (r virt : ℕ) : (accessFrame vm r virt false).map vm.mem =
    (view vm r virt).bind fun p => if p.user then some p.content else none := by
  unfold accessFrame AddrSpace.translate view
  cases walk vm r virt with
  | none => rfl
  | some es =>
    simp only [Option.map_some, Option.bind_some, translationOf, pageOf, Bool.not_false,
      Bool.or_true, Bool.and_true]
    split_ifs <;> rfl

/-- A write that the processor allows goes to a page of which the address space is the only
user; all others see no change. -/
theorem PrivateInv.store (h : PrivateInv vm₀ s pos) (hr : r ∈ s.live) (hv : virt < userPages)
    (hf : accessFrame s.vm r virt true = some f) (off : Fin 4096) (byte : BitVec 8) :
    PrivateInv vm₀ { s with vm := store s.vm f off byte } pos ∧
      ∀ r' ∈ s.live, ∀ v' < userPages, view (Spaces.store s.vm f off byte) r' v' =
        if r' = r ∧ v' = virt then
          (view s.vm r virt).map fun p => { p with content := storeByte p.content off byte }
        else view s.vm r' v' := by
  obtain ⟨es, hw, -, hwrite, rfl⟩ := accessFrame_eq_some_iff.mp hf
  have hset := h.settled
  -- a writable entry is the only reference to its frame
  have hone : ∀ k < 4, ∀ e, entryAt s.vm r virt k = some e → shared e = false ∧
      ppn e < s.vm.pageMap.totalPages ∧
      count s.vm pos (restHeld (reserved vm₀) s.live) (ppn e) = 1 := by
    intro k hk e he
    have hwe : write e = true := List.all_eq_true.mp (hwrite rfl) e (mem_of_walk hw hk he)
    obtain ⟨t, ht, rfl, hp⟩ := entryAt_eq_some_iff.mp he
    have hs := hset.frameAt_slot hr hv hk ht
    obtain ⟨hsh, hlt⟩ := hset.counted_entry h.counted hs hp
    exact ⟨hsh, hlt, (hset.entries hs hp).owned hwe hsh hlt⟩
  have hframe := frameAt_four hw
  have hpos : pos (ppn (es.getLastD 0)) = some (4, virt) := by
    obtain ⟨t, ht, hp, hppn⟩ := frameAt_succ_eq_some_iff.mp hframe
    have hs := hset.frameAt_slot hr hv (by decide) ht
    obtain ⟨hsh, hlt⟩ := hset.counted_entry h.counted hs hp
    have hc := (hset.entries hs hp).child hsh hlt
    rwa [hppn, ← prefixAt_succ (by decide), prefixAt_four] at hc
  have hmem : ∀ g, g ≠ ppn (es.getLastD 0) →
      (Spaces.store s.vm (ppn (es.getLastD 0)) off byte).mem g = s.vm.mem g :=
    fun g hg => Vm.mem_setFrame_of_ne hg
  have hent : ∀ t i d q, Slot pos t i d q →
      (Spaces.store s.vm (ppn (es.getLastD 0)) off byte).entry t i = s.vm.entry t i := by
    intro t i d q hs
    refine Vm.entry_congr (hmem t ?_)
    rintro rfl
    have := hpos.symm.trans hs.pos_eq
    simp only [Option.some.injEq, Prod.mk.injEq] at this
    have := hs.depth
    omega
  have hview : ∀ r' ∈ s.live, ∀ v' < userPages,
      view (Spaces.store s.vm (ppn (es.getLastD 0)) off byte) r' v' =
        if r' = r ∧ v' = virt then
          (view s.vm r virt).map fun p => { p with content := storeByte p.content off byte }
        else view s.vm r' v' := by
    intro r' hr' v' hv'
    unfold view
    rw [hset.walk_eq hr' hv' hent]
    split_ifs with hsame
    · obtain ⟨rfl, rfl⟩ := hsame
      rw [hw]
      simp [pageOf, Spaces.store]
    · cases hw' : walk s.vm r' v' with
      | none => rfl
      | some es' =>
        have hne : ppn (es'.getLastD 0) ≠ ppn (es.getLastD 0) := by
          intro he
          have hframe' := frameAt_four hw'
          rw [he] at hframe'
          obtain ⟨rfl, hp⟩ := hset.sole_owner hr hr' hv hv' le_rfl hframe hframe' hone
          exact hsame ⟨rfl, by simpa using hp⟩
        simp only [Option.map_some, pageOf, hmem _ hne]
        rfl
  refine ⟨⟨hset.congr_entry rfl hent, ?_, h.total⟩, hview⟩
  intro r' hr' v' hv' p hp
  rw [hview r' hr' v' hv'] at hp
  split_ifs at hp
  · obtain ⟨p', hp', rfl⟩ := Option.map_eq_some_iff.mp hp
    exact h.counted r hr virt hv p' hp'
  · exact h.counted r' hr' v' hv' p hp

/-- The abstract address spaces are what the real ones show. -/
structure Simulates (vm₀ : Vm) (s : Spaces) (m : Eager) : Prop where
  inv : ∃ pos, PrivateInv vm₀ s pos
  length_eq : m.length = s.live.length
  pages : ∀ (a r : ℕ) (p : ℕ → Option Page), s.live[a]? = some r → m[a]? = some p →
    ∀ virt < userPages, p virt = view s.vm r virt

/-- The eager model of the current address spaces. -/
def eager (s : Spaces) : Eager := s.live.map (view s.vm)

variable {m : Eager}

theorem Simulates.get (h : Simulates vm₀ s m) (ha : s.live[a]? = some r) :
    ∃ pages, m[a]? = some pages ∧ ∀ virt < userPages, pages virt = view s.vm r virt := by
  have hlt : a < m.length := by
    rw [h.length_eq]
    exact (List.getElem?_eq_some_iff.mp ha).1
  exact ⟨m[a], List.getElem?_eq_getElem hlt, h.pages a r _ ha (List.getElem?_eq_getElem hlt)⟩

theorem simulates_eager {pos : Positions} (h : PrivateInv vm₀ s pos) :
    Simulates vm₀ s s.eager where
  inv := ⟨pos, h⟩
  length_eq := List.length_map _
  pages a r pages ha hm virt _ := by
    rw [eager, List.getElem?_map, ha] at hm
    cases hm
    rfl

theorem Simulates.congr (h : Simulates vm₀ s m) (hl : s'.live = s.live)
    (hinv : ∃ pos, PrivateInv vm₀ s' pos)
    (hview : ∀ r ∈ s.live, ∀ virt < userPages, view s'.vm r virt = view s.vm r virt) :
    Simulates vm₀ s' m where
  inv := hinv
  length_eq := by rw [hl, h.length_eq]
  pages a r pages ha hm virt hv := by
    rw [hl] at ha
    rw [hview r (List.mem_of_getElem? ha) virt hv]
    exact h.pages a r pages ha hm virt hv

/-- A write that the processor allows is the same write in the eager model. -/
theorem Simulates.write (h : Simulates vm₀ s m) (ha : s.live[a]? = some r)
    (hv : virt < userPages) (hf : accessFrame s.vm r virt true = some f) (off : Fin 4096)
    (byte : BitVec 8) : ∃ m', m.step (.write a virt off byte) = some (m', .done) ∧
      Simulates vm₀ { s with vm := store s.vm f off byte } m' := by
  obtain ⟨pos, hinv⟩ := h.inv
  have hr := List.mem_of_getElem? ha
  obtain ⟨hinv', hview⟩ := hinv.store hr hv hf off byte
  obtain ⟨pages, hm, hpages⟩ := h.get ha
  obtain ⟨es, hw, hu, hwr, -⟩ := accessFrame_eq_some_iff.mp hf
  have hp : pages virt = some (pageOf s.vm es) := by rw [hpages virt hv, view, hw]; rfl
  have hok : (pageOf s.vm es).user && (pageOf s.vm es).writable := by
    have hwritable : es.all writable = true := by
      rw [List.all_eq_true] at hwr ⊢
      exact fun e he => by simp [writable, hwr rfl e he]
    simp [pageOf, hu, hwritable]
  refine ⟨m.set a (Function.update pages virt (some { pageOf s.vm es with
    content := storeByte (pageOf s.vm es).content off byte })), ?_, ⟨pos, hinv'⟩,
    by simpa using h.length_eq, ?_⟩
  · simp only [Eager.step, hm, Option.bind_eq_bind, Option.bind_some, hp, hok, if_true]
    rfl
  · intro b r' pages' hb hm' v' hv'
    have hr' := List.mem_of_getElem? hb
    rw [hview r' hr' v' hv']
    rw [List.getElem?_set] at hm'
    by_cases hab : a = b
    · subst hab
      rw [if_pos rfl, if_pos (List.getElem?_eq_some_iff.mp hm).1] at hm'
      cases hm'
      obtain rfl : r = r' := Option.some.inj (ha.symm.trans hb)
      rcases eq_or_ne v' virt with rfl | hne
      · simp [view, hw]
      · simp [hne, hpages v' hv']
    · rw [if_neg hab] at hm'
      have hne : r' ≠ r := by
        rintro rfl
        exact hab ((List.getElem?_inj (List.getElem?_eq_some_iff.mp ha).1
          hinv.settled.nodup).mp (ha.trans hb.symm))
      simp only [hne, false_and, if_false]
      exact h.pages b r' pages' hb hm' v' hv'

theorem Simulates.write_fault (h : Simulates vm₀ s m) (ha : s.live[a]? = some r)
    (hv : virt < userPages)
    (hno : ∀ p, view s.vm r virt = some p → (p.user && p.writable) = false) (off : Fin 4096)
    (byte : BitVec 8) : m.step (.write a virt off byte) = some (m, .fault) := by
  obtain ⟨pages, hm, hpages⟩ := h.get ha
  simp only [Eager.step, hm, Option.bind_eq_bind, Option.bind_some, hpages virt hv]
  cases hp : view s.vm r virt with
  | none => rfl
  | some p => simp [hno p hp]

theorem userStep_write_live {off : Fin 4096} {byte : BitVec 8} {out : Outcome}
    (hs : s.userStep (.write a virt off byte) = some (s', out)) : s'.live = s.live := by
  simp only [userStep, Option.bind_eq_bind, Option.bind_eq_some_iff] at hs
  obtain ⟨r, -, hs⟩ := hs
  split at hs
  · cases hs
    rfl
  · obtain ⟨⟨cow, vm⟩, -, hs⟩ := Option.bind_eq_some_iff.mp hs
    dsimp only at hs
    split at hs <;> cases hs <;> rfl

/-- One step of user code is one step of the eager model. -/
theorem Simulates.step {o : UserOp} {out : Outcome} (h : Simulates vm₀ s m)
    (hok : UserLawful s o) (hs : s.userStep o = some (s', out)) :
    ∃ m', m.step o = some (m', out) ∧ Simulates vm₀ s' m' := by
  obtain ⟨pos, hinv⟩ := h.inv
  cases o with
  | clone a =>
    obtain ⟨s₁, hst, he⟩ := Option.map_eq_some_iff.mp hs
    cases he
    have hinv' := hinv.step (c := .clone a) hok hst
    obtain ⟨r, n, vm, ha, hc, rfl⟩ := step_clone hst
    obtain ⟨-, -, hresh, hview⟩ := hinv.settled.clone (List.mem_of_getElem? ha) hok hc
    obtain ⟨pages, hm, hpages⟩ := h.get ha
    refine ⟨m ++ [pages], by simp [Eager.step, hm], hinv', by simp [h.length_eq], ?_⟩
    intro b r' pages' hb hm' v hv
    rcases Nat.lt_or_ge b s.live.length with hlt | hge
    · rw [List.getElem?_append_left hlt] at hb
      rw [List.getElem?_append_left (by rwa [h.length_eq])] at hm'
      rw [hresh.view_eq hinv.settled.toShape (List.mem_of_getElem? hb) hv]
      exact h.pages b r' pages' hb hm' v hv
    · rw [List.getElem?_append_right hge] at hb
      rw [List.getElem?_append_right (by rwa [h.length_eq]), h.length_eq] at hm'
      simp only [List.getElem?_singleton] at hb hm'
      split_ifs at hb hm'
      cases hb
      cases hm'
      rw [hview v hv, hpages v hv]
  | read a virt off =>
    simp only [userStep, Option.bind_eq_bind, Option.bind_eq_some_iff] at hs
    obtain ⟨r, ha, hs⟩ := hs
    obtain ⟨pages, hm, hpages⟩ := h.get ha
    have hread := accessFrame_read s.vm r virt
    simp only [Eager.step, hm, Option.bind_eq_bind, Option.bind_some, hpages virt hok]
    cases hf : accessFrame s.vm r virt false with
    | none =>
      simp only [hf] at hs hread
      cases hs
      refine ⟨m, ?_, h⟩
      cases hp : view s.vm r virt with
      | none => rfl
      | some p =>
        rw [hp, Option.map_none, Option.bind_some] at hread
        split_ifs at hread with hu
        simp [hu]
    | some f =>
      simp only [hf] at hs hread
      cases hs
      refine ⟨m, ?_, h⟩
      cases hp : view s.vm r virt with
      | none => simp [hp] at hread
      | some p =>
        rw [hp, Option.map_some, Option.bind_some] at hread
        split_ifs at hread with hu
        simp [hu, Option.some.inj hread]
  | write a virt off byte =>
    simp only [userStep, Option.bind_eq_bind, Option.bind_eq_some_iff] at hs
    obtain ⟨r, ha, hs⟩ := hs
    split at hs
    case h_1 f hf =>
      cases hs
      exact h.write ha hok hf off byte
    case h_2 hf =>
      obtain ⟨⟨cow, vm⟩, hc, hs⟩ := Option.bind_eq_some_iff.mp hs
      have hr := List.mem_of_getElem? ha
      have hinv' : ∃ pos, PrivateInv vm₀ { s with vm } pos :=
        hinv.step (c := .triggerCow a virt) hok (by simp [Spaces.step, ha, hc])
      obtain ⟨_, _, -, hresh, hiff, hwrite, -, -⟩ := hinv.settled.triggerCow hr hok hc
      have hsim : Simulates vm₀ { s with vm } m :=
        h.congr rfl hinv' fun r hr v hv => hresh.view_eq hinv.settled.toShape hr hv
      dsimp only at hs
      split at hs
      case h_1 f hf' =>
        cases hs
        split_ifs at hf' with hcow
        exact hsim.write ha hok hf' off byte
      case h_2 hf' =>
        cases hs
        refine ⟨m, hsim.write_fault ha hok (fun p hp => ?_) off byte, hsim⟩
        rw [hresh.view_eq hinv.settled.toShape hr hok] at hp
        cases cow with
        | false =>
          have hno : p.writable = false := by
            by_contra hw
            exact Bool.false_ne_true (hiff.mpr ⟨p, hp, by simpa using hw⟩)
          simp [hno]
        | true =>
          -- the entries are writable now, so it is not the write bit that forbids the access
          obtain ⟨es, hw, hall⟩ := hwrite rfl
          have hp' := (hresh.view_eq hinv.settled.toShape hr hok).trans hp
          rw [view, walk, hw] at hp'
          cases hp'
          have hu : es.all user = false := by
            by_contra hu
            rw [if_pos rfl, accessFrame_eq_some_iff.mpr
              ⟨es, hw, by simpa using hu, fun _ => hall, rfl⟩] at hf'
            cases hf'
          simp [pageOf, hu]

theorem userStep_read (s : Spaces) (a virt : ℕ) (off : Fin 4096) :
    (s.userStep (.read a virt off)).map Prod.snd = s.live[a]?.map fun r =>
      ((view s.vm r virt).bind fun p => if p.user then some p.content else none).elim
        .fault fun c => .byte (loadByte c off) := by
  simp only [userStep, ← accessFrame_read, Option.bind_eq_bind]
  cases s.live[a]? with
  | none => rfl
  | some r =>
    rw [Option.bind_some, Option.map_some]
    cases accessFrame s.vm r virt false <;> rfl

theorem Simulates.write_isolated {out : Outcome} {off : Fin 4096} {byte : BitVec 8}
    (h : Simulates vm₀ s m) (hv : virt < userPages)
    (hs : s.userStep (.write a virt off byte) = some (s', out)) {b v' : ℕ} (hb : b ≠ a)
    (hv' : v' < userPages) (off' : Fin 4096) :
    (s'.userStep (.read b v' off')).map Prod.snd = (s.userStep (.read b v' off')).map Prod.snd := by
  obtain ⟨m', hm', h'⟩ := h.step (o := .write a virt off byte) hv hs
  rw [userStep_read, userStep_read, userStep_write_live hs]
  cases hr : s.live[b]? with
  | none => rfl
  | some r =>
    obtain ⟨pages, hm, hpages⟩ := h.get hr
    have hview : view s'.vm r v' = view s.vm r v' := by
      rw [← hpages v' hv']
      refine (h'.pages b r pages ?_ ?_ v' hv').symm
      · rw [userStep_write_live hs, hr]
      · rw [Eager.step_write_other hm' hb, hm]
    rw [Option.map_some, Option.map_some, hview]

/-- Copy-on-write fork refines eager fork: from address spaces built by `map`, every run of
forks, reads and writes gives the answers of the eager model, and a write through one address
space leaves what the others read alone. -/
theorem userStep_refines_eager (vm : Vm) (s : Spaces)
    (hbuilt : Run.Reachable Spaces.step Private (initial vm) s) (ops : List UserOp)
    (hlawful : Run.Guarded (fun s o => (userStep s o).map Prod.fst) UserLawful s ops)
    (s' : Spaces) (outs : List Outcome) (hrun : Run.outputs userStep s ops = some (s', outs)) :
    (∃ m', Run.outputs Eager.step s.eager ops = some (m', outs)) ∧
    ∀ a virt off byte s'' out, virt < userPages →
      s'.userStep (.write a virt off byte) = some (s'', out) →
      ∀ b v' off', b ≠ a → v' < userPages →
        (s''.userStep (.read b v' off')).map Prod.snd =
          (s'.userStep (.read b v' off')).map Prod.snd := by
  obtain ⟨pos, hinv⟩ := PrivateInv.reachable hbuilt
  obtain ⟨m', hm, hsim⟩ := Run.outputs_simulation
    (fun _ _ _ _ _ h hok hs => h.step hok hs) (simulates_eager hinv) hlawful hrun
  exact ⟨⟨m', hm⟩, fun a virt off byte s'' out hv hw b v' off' hb hv' =>
    hsim.write_isolated hv hw hb hv' off'⟩

/-- An address space with one page that user code may write. -/
def pageCalls : List Call := [.create, .map 0 0 (fun _ => 0) ⟨true, true, false, false, false⟩]

def onePage : Spaces := (pageCalls.foldlM step (initial (blank 16))).get (by decide +kernel)

/-- Write a byte, fork, and read it back on both sides. -/
def forkOps : List UserOp := [.write 0 0 9 42, .clone 0, .read 0 0 9, .read 1 0 9]

theorem userStep_refines_eager_forkOps : ∃ s' m',
    Run.outputs userStep onePage forkOps = some (s', [.done, .done, .byte 42, .byte 42]) ∧
    Run.outputs Eager.step onePage.eager forkOps =
      some (m', [.done, .done, .byte 42, .byte 42]) := by
  have hguard : Run.Guarded step Private (initial (blank 16)) pageCalls := by decide +kernel
  have hlawful : Run.Guarded (fun s o => (userStep s o).map Prod.fst) UserLawful onePage
      forkOps := by decide +kernel
  have houts : (Run.outputs userStep onePage forkOps).map Prod.snd =
      some [.done, .done, .byte 42, .byte 42] := by decide +kernel
  obtain ⟨⟨s', outs⟩, hout, rfl⟩ := Option.map_eq_some_iff.mp houts
  obtain ⟨⟨m', hm⟩, -⟩ := userStep_refines_eager (blank 16) onePage
    (hguard.reachable (Option.some_get _).symm) forkOps hlawful s' _ hout
  exact ⟨s', m', hout, hm⟩

end Spaces

end Koerix
