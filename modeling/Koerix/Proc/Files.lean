import Koerix.Lib.Run
import Koerix.Map.Index
import Koerix.Refs.FileDesc
import Mathlib.Data.Int.Init

/-! # Descriptor tables

A process keeps its open files in a map from numbers to descriptors. `insertOpenFile` is
given a number, or looks for the smallest one that is not in the table. It counts in a
`ssize_t` and returns an `int`, so that the number has to be below `2^31` to be returned.
-/

namespace Koerix

open SearchTree

/-- `m_files`. -/
abbrev FileTable (φ : Type) := Map ℕ (FileDesc φ)

namespace FileTable

variable {φ : Type}

/-- The loop `while (m_files.find(fdNum++));`. -/
def skipUsed (m : FileTable φ) : ℕ → ℕ → Option ℕ
  | 0, _ => none
  | n + 1, fdNum => do
    match ← m.find fdNum with
    | some _ => skipUsed m n (fdNum + 1)
    | none => some (fdNum + 1)

/-- The conversion to `int`. -/
def toInt (n : ℕ) : ℤ := Int.bmod n (2 ^ 32)

/-- `UserProcess::insertOpenFile`. A new entry of the table goes to the address `a`. -/
def insertOpenFile (m : FileTable φ) (fd : FileDesc φ) (fdNum : ℤ) (a : ℕ) :
    Option (ℤ × FileTable φ) := do
  let fdNum ← if fdNum < 0 then (m.skipUsed (m.fuel + 1) 0).map (· - 1) else some fdNum.toNat
  let m ← m.index fdNum fd a
  return (toInt fdNum, m)

/-- `UserProcess::getOpenFile`. -/
def getOpenFile (m : FileTable φ) (fd : ℕ) : Option (FileDesc φ) :=
  (m.lookup fd).map fun it => it.getD ⟨false, false, none⟩

/-- A call of `insertOpenFile`: `open` and `pipe` give no number, and `dup2` an `int` that is
not negative. -/
structure Call (φ : Type) where
  fd : FileDesc φ
  fdNum : Option (Fin (2 ^ 31))

def step (A : Allocator) (m : FileTable φ) (c : Call φ) : Option (FileTable φ) :=
  (m.insertOpenFile c.fd (c.fdNum.elim (-1) fun n => n.val) (A.pick m.heap.dom)).map Prod.snd

variable {m m' : FileTable φ} {t t' : SearchTree ℕ ℕ (FileDesc φ)} {fd : FileDesc φ} {a i n : ℕ}
  {A : Allocator}

theorem toInt_of_lt (hn : n < 2 ^ 31) : toInt n = n := by
  apply Int.bmod_eq_of_le_mul_two
  · push_cast
    omega
  · push_cast
    omega

/-- The numbers that are not in the table. -/
def unused (m : FileTable φ) : Set ℕ := {j | m.find j = some none}

theorem unused_eq (h : m.Represents t) : m.unused = {j | t.find j = none} := by
  ext j
  simp [unused, h.find_eq]

theorem skipUsed_eq (h : m.Represents t) (hused : ∀ j < i, (t.find j).isSome)
    (hn : t.size < n + i) :
    ∃ k, m.skipUsed n i = some (k + 1) ∧ IsLeast {j | t.find j = none} k := by
  induction n generalizing i with
  | zero =>
    have hsub : List.range i ⊆ t.keys := by
      intro j hj
      exact (find_isSome_iff h.ordered).mp (hused j (List.mem_range.mp hj))
    have hle := (List.nodup_range.subperm hsub).length_le
    rw [List.length_range, length_keys] at hle
    omega
  | succ n ih =>
    rw [skipUsed, h.find_eq, Option.bind_eq_bind, Option.bind_some]
    cases hf : t.find i with
    | none =>
      refine ⟨i, rfl, hf, fun j hj => ?_⟩
      by_contra hlt
      have hsome := hused j (not_le.mp hlt)
      rw [Set.mem_ofPred_eq.mp hj] at hsome
      cases hsome
    | some p =>
      refine ih (fun j hj => ?_) (by omega)
      rcases Nat.lt_succ_iff_lt_or_eq.mp hj with hj | rfl
      · exact hused j hj
      · rw [hf]
        rfl

/-- The table after a descriptor has been put under a number. -/
structure Inserted (m m' : FileTable φ) (fd : FileDesc φ) (n : ℕ) : Prop where
  get_self : m'.getOpenFile n = some fd
  get_other : ∀ j, j ≠ n → m'.getOpenFile j = m.getOpenFile j

theorem exists_index (h : m.Represents t) (ha : a ∉ m.heap.dom) (fd : FileDesc φ) (n : ℕ) :
    ∃ m' t', m.index n fd a = some m' ∧ m'.Represents t' ∧ Inserted m m' fd n ∧
      ∀ j, t'.find j = none ↔ t.find j = none ∧ j ≠ n := by
  obtain ⟨m', hm'⟩ := h.exists_index (k := n) (v := fd) ha
  obtain ⟨t', h', -, -, hother, hself, -⟩ := h.index hm'
  refine ⟨m', t', hm', h', ⟨?_, fun j hj => ?_⟩, fun j => ?_⟩
  · rw [getOpenFile, h'.lookup_eq, hself]
    rfl
  · rw [getOpenFile, getOpenFile, h'.lookup_eq, h.lookup_eq, hother j hj]
  · rcases eq_or_ne j n with rfl | hne
    · have hsome : t'.find j ≠ none := by
        intro hnone
        rw [hnone] at hself
        cases hself
      simp [hsome]
    · simp [hother j hne, hne]

theorem insertOpenFile_of_neg (h : m.Represents t) (ha : a ∉ m.heap.dom) (fd : FileDesc φ) :
    ∃ n m' t', IsLeast {j | t.find j = none} n ∧
      m.insertOpenFile fd (-1) a = some (toInt n, m') ∧ m'.Represents t' ∧ Inserted m m' fd n ∧
      ∀ j, t'.find j = none ↔ t.find j = none ∧ j ≠ n := by
  obtain ⟨n, hskip, hleast⟩ := skipUsed_eq (i := 0) (n := m.fuel + 1) h (by simp)
    (Nat.lt_succ_of_le (h.shape.size_le h.nodup))
  obtain ⟨m', t', hm', h', hins, hnone⟩ := exists_index h ha fd n
  exact ⟨n, m', t', hleast, by simp [insertOpenFile, hskip, hm'], h', hins, hnone⟩

theorem insertOpenFile_of_nonneg (h : m.Represents t) (ha : a ∉ m.heap.dom) (fd : FileDesc φ)
    (n : ℕ) : ∃ m' t', m.insertOpenFile fd n a = some (toInt n, m') ∧ m'.Represents t' ∧
      Inserted m m' fd n := by
  obtain ⟨m', t', hm', h', hins, -⟩ := exists_index h ha fd n
  have hneg : ¬ (n : ℤ) < 0 := by omega
  exact ⟨m', t', by simp [insertOpenFile, hneg, hm'], h', hins⟩

theorem exists_step (h : m.Represents t) (c : Call φ) :
    ∃ m' t', m.step A c = some m' ∧ m'.Represents t' := by
  obtain ⟨fd, fdNum⟩ := c
  cases fdNum with
  | none =>
    obtain ⟨n, m', t', -, hm', h', -⟩ := insertOpenFile_of_neg h (A.fresh _) fd
    exact ⟨m', t', by simp [step, hm'], h'⟩
  | some n =>
    obtain ⟨m', t', hm', h', -⟩ := insertOpenFile_of_nonneg h (A.fresh _) fd n
    exact ⟨m', t', by simp [step, hm'], h'⟩

/-- Every sequence of calls returns, and leaves a search tree. -/
theorem exists_run (h : m.Represents t) (calls : List (Call φ)) :
    ∃ m' t', calls.foldlM (step A) m = some m' ∧ m'.Represents t' := by
  have hstep : ∀ (m : FileTable φ) (c : Call φ), (∃ t, m.Represents t) →
      ∃ m', step A m c = some m' ∧ ∃ t', m'.Represents t' := by
    rintro m c ⟨t, h⟩
    obtain ⟨m', t', hm', h'⟩ := exists_step h c
    exact ⟨m', hm', t', h'⟩
  obtain ⟨m', hm', t', h'⟩ := Run.exists_foldlM hstep ⟨t, h⟩ calls
  exact ⟨m', t', hm', h'⟩

theorem represents_empty (heap : Entries ℕ (FileDesc φ)) :
    Map.Represents (.empty heap : FileTable φ) .leaf :=
  ⟨rfl, .nil, trivial⟩

/-- In every table that calls of `insertOpenFile` lead to, a call without a number stores the
descriptor under the smallest number that is not in the table, which it returns as an `int`; a
call with a number stores it there. All other descriptors stay. -/
theorem insertOpenFile_spec (A : Allocator) (heap : Entries ℕ (FileDesc φ))
    (calls : List (Call φ)) :
    ∃ m : FileTable φ, calls.foldlM (step A) (.empty heap) = some m ∧ ∀ fd,
      (∃ n m', IsLeast m.unused n ∧
        m.insertOpenFile fd (-1) (A.pick m.heap.dom) = some (toInt n, m') ∧
        (n < 2 ^ 31 → toInt n = n) ∧ m'.getOpenFile n = some fd ∧
        ∀ j, j ≠ n → m'.getOpenFile j = m.getOpenFile j) ∧
      ∀ n : Fin (2 ^ 31), ∃ m',
        m.insertOpenFile fd n.val (A.pick m.heap.dom) = some ((n.val : ℤ), m') ∧
        m'.getOpenFile n = some fd ∧ ∀ j, j ≠ n.val → m'.getOpenFile j = m.getOpenFile j := by
  obtain ⟨m, t, hm, h⟩ := exists_run (A := A) (represents_empty heap) calls
  refine ⟨m, hm, fun fd => ⟨?_, fun n => ?_⟩⟩
  · obtain ⟨n, m', t', hleast, hm', -, hins, -⟩ := insertOpenFile_of_neg h (A.fresh _) fd
    rw [← unused_eq h] at hleast
    exact ⟨n, m', hleast, hm', toInt_of_lt, hins.get_self, hins.get_other⟩
  · obtain ⟨m', t', hm', -, hins⟩ := insertOpenFile_of_nonneg h (A.fresh _) fd n
    rw [toInt_of_lt n.isLt] at hm'
    exact ⟨m', hm', hins.get_self, hins.get_other⟩

theorem exists_run_replicate (A : Allocator) (heap : Entries ℕ (FileDesc φ)) (fd : FileDesc φ)
    (n : ℕ) : ∃ (m : FileTable φ) (t : SearchTree ℕ ℕ (FileDesc φ)),
      (List.replicate n ⟨fd, none⟩).foldlM (step A) (.empty heap) = some m ∧ m.Represents t ∧
      ∀ j, t.find j = none ↔ n ≤ j := by
  induction n with
  | zero => exact ⟨_, .leaf, rfl, represents_empty heap, by simp [SearchTree.find]⟩
  | succ n ih =>
    obtain ⟨m, t, hm, h, hnone⟩ := ih
    obtain ⟨k, m', t', hleast, hm', h', -, hnone'⟩ := insertOpenFile_of_neg h (A.fresh _) fd
    have hk : k = n := by
      refine hleast.unique ⟨(hnone n).mpr le_rfl, fun j hj => (hnone j).mp hj⟩
    refine ⟨m', t', ?_, h', fun j => ?_⟩
    · rw [List.replicate_succ', List.foldlM_append, hm]
      simp [step, hm']
    · rw [hnone', hnone, hk]
      omega

/-- After `2^31` calls the number no longer fits into an `int`. -/
theorem not_forall_insertOpenFile_least :
    ¬ ∀ (A : Allocator) (heap : Entries ℕ (FileDesc Unit)) (calls : List (Call Unit)),
      ∃ m : FileTable Unit, calls.foldlM (step A) (.empty heap) = some m ∧ ∀ fd,
        ∃ n m', IsLeast m.unused n ∧
          m.insertOpenFile fd (-1) (A.pick m.heap.dom) = some ((n : ℤ), m') := by
  intro hall
  obtain ⟨m, t, hm, h, hnone⟩ := exists_run_replicate .next
    ⟨∅, fun _ => ⟨0, ⟨false, false, none⟩, none, none, none⟩⟩ (⟨true, true, some ()⟩) (2 ^ 31)
  obtain ⟨m₁, hm₁, hfd⟩ := hall .next _ _
  obtain rfl : m = m₁ := Option.some.inj (hm.symm.trans hm₁)
  obtain ⟨n, m', hleast, hn⟩ := hfd ⟨true, true, some ()⟩
  obtain ⟨k, m₂, t', hleast', hk, -⟩ := insertOpenFile_of_neg h (Allocator.next.fresh _)
    ⟨true, true, some ()⟩
  rw [unused_eq h] at hleast
  obtain rfl : k = n := hleast'.unique hleast
  obtain rfl : k = 2 ^ 31 :=
    hleast.unique ⟨(hnone _).mpr le_rfl, fun j hj => (hnone j).mp hj⟩
  rw [hk] at hn
  simp only [Option.some.injEq, Prod.mk.injEq] at hn
  exact absurd hn.1 (by decide)

end FileTable

end Koerix
