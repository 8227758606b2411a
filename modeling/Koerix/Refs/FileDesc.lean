import Koerix.Lib.InDegree
import Koerix.Lib.Run
import Mathlib.Data.Fintype.Card
import Mathlib.Data.List.Count

/-! # File descriptors

A `FileDesc` refers to a `File` and counts as one reference to it. The constructors,
the assignment and the destructor move references about; `closed()` runs when
the last one goes, and deletes the file if it is a pipe. An undefined step is a
failed assertion or an access to a deleted file.
-/

namespace Koerix

open InDegree

/-- `FileDesc` objects by their address, 16 bytes each. -/
abbrev FdAddr := Fin (2 ^ 60)

/-- `fs::FileDesc`; a null `m_file` is `none`. -/
structure FileDesc (φ : Type*) where
  valid : Bool
  write : Bool
  file : Option φ

/-- The live `FileDesc` objects, the files, and the files for which `closed()` has run. -/
structure Files (φ : Type*) where
  fd : FdAddr → Option (FileDesc φ)
  refs : φ → UInt64
  isPipe : φ → Bool
  closed : List φ

namespace Files

variable {φ : Type*} [DecidableEq φ]

/-- No descriptors, and no references. -/
def init (isPipe : φ → Bool) : Files φ := ⟨fun _ => none, fun _ => 0, isPipe, []⟩

/-- A pipe deletes itself in `closed()`. -/
def Deleted (s : Files φ) (f : φ) : Prop := s.isPipe f = true ∧ f ∈ s.closed

instance (s : Files φ) (f : φ) : Decidable (s.Deleted f) := inferInstanceAs (Decidable (_ ∧ _))

/-- `File::addRef`. -/
def addRef (f : φ) (s : Files φ) : Option (Files φ) :=
  if s.Deleted f then none
  else some { s with refs := Function.update s.refs f (s.refs f + 1) }

/-- `File::release`. -/
def release (f : φ) (s : Files φ) : Option (Files φ) :=
  if s.Deleted f then none
  else if s.refs f = 0 then none
  else some { s with
    refs := Function.update s.refs f (s.refs f - 1)
    closed := if s.refs f = 1 then s.closed ++ [f] else s.closed }

/-- Set the object at `d`. -/
def setFd (d : FdAddr) (x : Option (FileDesc φ)) (s : Files φ) : Files φ :=
  { s with fd := Function.update s.fd d x }

/-- `if (m_file) m_file->addRef()`. -/
def addRefOf (x : FileDesc φ) (s : Files φ) : Option (Files φ) := x.file.elim (some s) (addRef · s)

/-- `if (m_file) m_file->release()`. -/
def releaseOf (x : FileDesc φ) (s : Files φ) : Option (Files φ) :=
  x.file.elim (some s) (release · s)

/-- What can be done with the object at an address. -/
inductive Op (φ : Type*)
  /-- `FileDesc()` -/
  | default (d : FdAddr)
  /-- `FileDesc(File* file, bool write)` -/
  | ofFile (d : FdAddr) (f : φ) (write : Bool)
  /-- `FileDesc(const FileDesc& fd)` -/
  | copy (d src : FdAddr)
  /-- `operator=(const FileDesc& fd)` -/
  | assign (d src : FdAddr)
  /-- `~FileDesc()` -/
  | destroy (d : FdAddr)

def step (s : Files φ) : Op φ → Option (Files φ)
  | .default d => some (s.setFd d (some ⟨false, false, none⟩))
  | .ofFile d f write => (s.addRef f).map (·.setFd d (some ⟨true, write, some f⟩))
  | .copy d src => do
    let x ← s.fd src
    let s ← s.addRefOf x
    return s.setFd d (some x)
  | .assign d src => do
    let old ← s.fd d
    let s ← s.releaseOf old
    let x ← s.fd src
    let s := s.setFd d (some x)
    s.addRefOf x
  | .destroy d => do
    let old ← s.fd d
    let s ← s.releaseOf old
    return s.setFd d none

/-- Objects are constructed where there is none, of a file that exists; they are copied,
assigned to each other and destroyed while they are live. -/
def Legal (s : Files φ) : Op φ → Prop
  | .default d => s.fd d = none
  | .ofFile d f _ => s.fd d = none ∧ ¬ s.Deleted f
  | .copy d src => s.fd d = none ∧ s.fd src ≠ none
  | .assign d src => d ≠ src ∧ s.fd d ≠ none ∧ s.fd src ≠ none
  | .destroy d => s.fd d ≠ none

instance (s : Files φ) : DecidablePred s.Legal
  | .default _ => inferInstanceAs (Decidable (_ = none))
  | .ofFile _ f _ => inferInstanceAs (Decidable (_ = none ∧ ¬ s.Deleted f))
  | .copy _ _ => inferInstanceAs (Decidable (_ = none ∧ _ ≠ none))
  | .assign _ _ => inferInstanceAs (Decidable (_ ≠ _ ∧ _ ≠ none ∧ _ ≠ none))
  | .destroy _ => inferInstanceAs (Decidable (_ ≠ none))

/-- The file that the object at an address refers to. -/
def file (s : Files φ) (d : FdAddr) : Option φ := (s.fd d).bind FileDesc.file

/-- The number of live objects that refer to a file. -/
def owners (s : Files φ) (f : φ) : ℕ := deg Finset.univ s.file f

variable {s s' : Files φ} {d src : FdAddr} {f g : φ} {x : FileDesc φ} {op : Op φ}

/-- The counters are exact, and files that objects refer to exist. -/
structure Inv (s : Files φ) : Prop where
  counted : Counted s.file s.refs
  exist : ∀ d f, s.file d = some f → ¬ s.Deleted f

theorem inv_init (isPipe : φ → Bool) : Inv (init isPipe) where
  counted f := by
    rw [deg_eq_zero_iff.mpr fun d _ => by simp [file, init]]
    rfl
  exist d f h := by simp [file, init] at h

omit [DecidableEq φ] in
theorem file_setFd (x : Option (FileDesc φ)) :
    (s.setFd d x).file = Function.update s.file d (x.bind FileDesc.file) := by
  funext e
  rcases eq_or_ne e d with rfl | hne
  · simp [file, setFd]
  · simp [file, setFd, hne]

/-- The `closed()` calls of a step are those of the files whose counter goes from 1 to 0. -/
def ClosesExactly (s s' : Files φ) : Prop :=
  ∀ f, s'.closed.count f =
    s.closed.count f + if s.refs f = 1 ∧ s'.refs f = 0 then 1 else 0

theorem ClosesExactly.refl (s : Files φ) : ClosesExactly s s := by
  intro f
  rw [if_neg]
  · rfl
  · rintro ⟨h₁, h₀⟩
    simp [h₁] at h₀

theorem ClosesExactly.attach {s₁ : Files φ} (h : ClosesExactly s s₁)
    (hg : ¬ (s.refs g = 1 ∧ s₁.refs g = 0)) (hpos : s'.refs g ≠ 0)
    (hrefs : ∀ f, f ≠ g → s'.refs f = s₁.refs f) (hclosed : s'.closed = s₁.closed) :
    ClosesExactly s s' := by
  intro f
  rw [hclosed, h f]
  rcases eq_or_ne f g with rfl | hne
  · rw [if_neg hg, if_neg fun hc => hpos hc.2]
  · rw [hrefs f hne]

omit [DecidableEq φ] in
theorem card_fdAddr : Fintype.card FdAddr < 2 ^ 64 := by
  rw [Fintype.card_fin]
  decide

namespace Inv

theorem setFd_none (h : Inv s) (hd : s.file d = none) {x : Option (FileDesc φ)}
    (hx : x.bind FileDesc.file = none) : Inv (s.setFd d x) := by
  have hfile : (s.setFd d x).file = s.file := by
    rw [file_setFd, hx, ← hd, Function.update_eq_self]
  exact ⟨hfile ▸ h.counted, hfile ▸ h.exist⟩

theorem addRef (h : Inv s) (hd : s.file d = none) (hf : ¬ s.Deleted f) (hx : x.file = some f) :
    ∃ s₁, s.addRef f = some s₁ ∧ Inv (s₁.setFd d (some x)) ∧ s₁.fd = s.fd ∧
      s₁.refs f ≠ 0 ∧ (∀ g, g ≠ f → s₁.refs g = s.refs g) ∧ s₁.closed = s.closed := by
  have hfile : ({ s with refs := Function.update s.refs f (s.refs f + 1) }.setFd d (some x)).file =
      Function.update s.file d (some f) := by
    rw [file_setFd]
    exact congrArg _ hx
  have hinv :
      Inv ({ s with refs := Function.update s.refs f (s.refs f + 1) }.setFd d (some x)) := by
    refine ⟨hfile ▸ h.counted.attach card_fdAddr hd, fun e g he => ?_⟩
    rw [hfile] at he
    rcases eq_or_ne e d with rfl | hne
    · rw [Function.update_self] at he
      exact Option.some.inj he ▸ hf
    · rw [Function.update_of_ne hne] at he
      exact h.exist e g he
  refine ⟨_, if_neg hf, hinv, rfl, ?_, fun g hg => Function.update_of_ne hg _ _, rfl⟩
  exact hinv.counted.ne_zero (k := d) (by rw [hfile, Function.update_self])

/-- An object lets go of its file. -/
theorem release (h : Inv s) (hd : s.file d = some f) {x : Option (FileDesc φ)}
    (hx : x.bind FileDesc.file = none) :
    ∃ s₁, s.release f = some s₁ ∧ Inv (s₁.setFd d x) ∧ s₁.fd = s.fd ∧ ClosesExactly s s₁ := by
  have hne : s.refs f ≠ 0 := h.counted.ne_zero hd
  have hrel : s.release f = some { s with
      refs := Function.update s.refs f (s.refs f - 1)
      closed := if s.refs f = 1 then s.closed ++ [f] else s.closed } := by
    rw [Files.release, if_neg (h.exist d f hd), if_neg hne]
  refine ⟨_, hrel, ?_, rfl, ?_⟩
  · have hcounted := h.counted.detach hd
    constructor
    · rw [file_setFd, hx]
      exact hcounted
    · intro e g he hdel
      rw [file_setFd, hx] at he
      have hold : s.file e = some g := by
        rcases eq_or_ne e d with rfl | hed
        · rw [Function.update_self] at he
          cases he
        · rwa [Function.update_of_ne hed] at he
      obtain ⟨hpipe, hmem⟩ := hdel
      change g ∈ (if s.refs f = 1 then s.closed ++ [f] else s.closed) at hmem
      split_ifs at hmem with h1
      · rcases List.mem_append.mp hmem with hmem | hmem
        · exact h.exist e g hold ⟨hpipe, hmem⟩
        · -- the file that has been closed is referred to by no other object
          obtain rfl := List.mem_singleton.mp hmem
          have hpos := hcounted.pos he
          rw [Function.update_self, h1] at hpos
          cases hpos
      · exact h.exist e g hold ⟨hpipe, hmem⟩
  · intro g
    dsimp only
    rcases eq_or_ne g f with rfl | hg
    · rcases eq_or_ne (s.refs g) 1 with h1 | h1
      · simp [h1]
      · simp [h1]
    · simp only [Function.update_of_ne hg]
      have hno : ¬ (s.refs g = 1 ∧ s.refs g = 0) := by
        rintro ⟨h₁, h₀⟩
        simp [h₁] at h₀
      rw [if_neg hno]
      split_ifs
      · simp [hg.symm]
      · rfl

/-- Every operation is defined, keeps the invariant, and closes the right files. -/
theorem step (h : Inv s) (hok : Legal s op) :
    ∃ s', s.step op = some s' ∧ Inv s' ∧ ClosesExactly s s' := by
  cases op with
  | default d =>
    have hd : s.file d = none := by simp [file, show s.fd d = none from hok]
    exact ⟨_, rfl, h.setFd_none hd rfl, .refl s⟩
  | ofFile d f write =>
    have hd : s.file d = none := by simp [file, hok.1]
    obtain ⟨s₁, hs₁, hinv, -, hpos, hrefs, hclosed⟩ :=
      h.addRef (x := ⟨true, write, some f⟩) hd hok.2 rfl
    refine ⟨_, by rw [Files.step, hs₁]; rfl, hinv,
      (ClosesExactly.refl s).attach ?_ hpos hrefs hclosed⟩
    rintro ⟨h₁, h₀⟩
    simp [h₁] at h₀
  | copy d src =>
    have hd : s.file d = none := by simp [file, hok.1]
    obtain ⟨x, hx⟩ := Option.ne_none_iff_exists'.mp hok.2
    cases hf : x.file with
    | none =>
      refine ⟨s.setFd d (some x), ?_, h.setFd_none hd hf, .refl s⟩
      simp [Files.step, hx, addRefOf, hf]
    | some f =>
      have hsrc : s.file src = some f := by simp [file, hx, hf]
      obtain ⟨s₁, hs₁, hinv, -, hpos, hrefs, hclosed⟩ := h.addRef hd (h.exist src f hsrc) hf
      refine ⟨s₁.setFd d (some x), ?_, hinv, (ClosesExactly.refl s).attach ?_ hpos hrefs hclosed⟩
      · simp [Files.step, hx, addRefOf, hf, hs₁]
      · rintro ⟨h₁, h₀⟩
        simp [h₁] at h₀
  | assign d src =>
    obtain ⟨hne, hd, hsrc⟩ := hok
    obtain ⟨old, hold⟩ := Option.ne_none_iff_exists'.mp hd
    obtain ⟨x, hx⟩ := Option.ne_none_iff_exists'.mp hsrc
    -- the object lets go of its file
    obtain ⟨s₁, hs₁, hinv₁, hfd₁, hclose₁⟩ : ∃ s₁, s.releaseOf old = some s₁ ∧
        Inv (s₁.setFd d (some ⟨false, false, none⟩)) ∧ s₁.fd = s.fd ∧ ClosesExactly s s₁ := by
      cases hf : old.file with
      | none =>
        refine ⟨s, by simp [releaseOf, hf], h.setFd_none ?_ rfl, rfl, .refl s⟩
        simp [file, hold, hf]
      | some f =>
        obtain ⟨s₁, hs₁, hinv₁, hrest⟩ := h.release (d := d) (f := f)
          (x := some ⟨false, false, none⟩) (by simp [file, hold, hf]) rfl
        exact ⟨s₁, by simp [releaseOf, hf, hs₁], hinv₁, hrest⟩
    have hx₁ : s₁.fd src = some x := by rw [hfd₁, hx]
    have hd₁ : (s₁.setFd d (some ⟨false, false, none⟩)).file d = none := by
      simp [file_setFd]
    have hset : (s₁.setFd d (some ⟨false, false, none⟩)).setFd d (some x) =
        s₁.setFd d (some x) := by
      simp [setFd]
    -- and takes the other one
    cases hg : x.file with
    | none =>
      refine ⟨s₁.setFd d (some x), ?_, hset ▸ hinv₁.setFd_none hd₁ hg, hclose₁⟩
      simp [Files.step, hold, hs₁, hx₁, addRefOf, hg]
    | some g =>
      have hsrc₁ : (s₁.setFd d (some ⟨false, false, none⟩)).file src = some g := by
        rw [file_setFd, Function.update_of_ne hne.symm]
        simp [file, hx₁, hg]
      obtain ⟨s₂, hs₂, hinv₂, -, hpos, hrefs, hclosed⟩ :=
        hinv₁.addRef hd₁ (hinv₁.exist src g hsrc₁) hg
      have hadd : (s₁.setFd d (some x)).addRef g = some (s₂.setFd d (some x)) := by
        simp only [Files.addRef, Option.ite_none_left_eq_some, Option.some.injEq] at hs₂ ⊢
        obtain ⟨hdel, rfl⟩ := hs₂
        exact ⟨hdel, by simp [setFd]⟩
      refine ⟨s₂.setFd d (some x), ?_, hinv₂, hclose₁.attach ?_ hpos hrefs hclosed⟩
      · simp [Files.step, hold, hs₁, hx₁, addRefOf, hg, hadd]
      · exact fun hc => hinv₁.counted.ne_zero hsrc₁ hc.2
  | destroy d =>
    obtain ⟨old, hold⟩ := Option.ne_none_iff_exists'.mp hok
    cases hf : old.file with
    | none =>
      refine ⟨s.setFd d none, ?_, h.setFd_none ?_ rfl, .refl s⟩
      · simp [Files.step, hold, releaseOf, hf]
      · simp [file, hold, hf]
    | some f =>
      obtain ⟨s₁, hs₁, hinv, -, hclose⟩ := h.release (d := d) (f := f) (x := none)
        (by simp [file, hold, hf]) rfl
      refine ⟨s₁.setFd d none, ?_, hinv, hclose⟩
      simp [Files.step, hold, releaseOf, hf, hs₁]

theorem reachable {isPipe : φ → Bool} (h : Run.Reachable Files.step Legal (init isPipe) s) :
    Inv s := by
  refine h.invariant (inv_init isPipe) ?_
  intro s op s' hinv hok hs
  obtain ⟨s₁, hs₁, hinv', -⟩ := hinv.step hok
  rw [hs] at hs₁
  cases hs₁
  exact hinv'

end Inv

/-- In every run the counters are the numbers of live descriptors, every operation is defined and
closes exactly the files whose counter goes from 1 to 0, and no live descriptor refers to a pipe
that is closed. -/
theorem refs_exact (isPipe : φ → Bool) (s : Files φ)
    (h : Run.Reachable step Legal (init isPipe) s) :
    (∀ f, (s.refs f).toNat = s.owners f) ∧
      (∀ op, Legal s op → ∃ s', s.step op = some s' ∧ ClosesExactly s s') ∧
      ∀ d f, s.file d = some f → s.isPipe f = true → f ∉ s.closed := by
  have hinv := Inv.reachable h
  refine ⟨hinv.counted, fun op hok => ?_, fun d f hf hp hc => hinv.exist d f hf ⟨hp, hc⟩⟩
  obtain ⟨s', hs, -, hclose⟩ := hinv.step hok
  exact ⟨s', hs, hclose⟩

/-- `sys_pipe`: two descriptors of a new pipe by way of temporaries, then one of them is
destroyed. -/
def pipeCalls : List (Op Bool) :=
  [.ofFile 9 true true, .default 0, .assign 0 9, .destroy 9, .ofFile 9 true true, .default 1,
    .assign 1 9, .destroy 9, .destroy 0]

theorem refs_exact_pipeCalls :
    ∃ s, Run.guardedRun step Legal (init fun _ => true) pipeCalls = some s ∧
    s.refs true = 1 ∧ s.owners true = 1 ∧ true ∉ s.closed := by
  have hrun : (Run.guardedRun step Legal (init fun _ => true) pipeCalls).map
      (fun s => (s.refs true, s.file 1, s.isPipe true)) = some (1, some true, true) := by
    decide +kernel
  obtain ⟨s, hs, heq⟩ := Option.map_eq_some_iff.mp hrun
  simp only [Prod.mk.injEq] at heq
  obtain ⟨hrefs, hfile, hpipe⟩ := heq
  obtain ⟨hcount, -, hopen⟩ := refs_exact _ s (Run.reachable_of_guardedRun hs)
  refine ⟨s, hs, hrefs, ?_, hopen 1 true hfile hpipe⟩
  rw [← hcount, hrefs]
  rfl

end Files

end Koerix
