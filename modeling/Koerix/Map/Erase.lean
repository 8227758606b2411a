import Koerix.Lib.Run
import Koerix.Map.Index

/-! # Erasing from a map

`MapEntry::erase` follows both children and the parent of the entry, so that it faults at
the root, at a leaf and at an entry with one child. At an entry with two children that is not
the root it returns, but the left child still points to the entry that is then deleted, or is
not reached any more. Erasing works exactly for keys that are not in the map.
-/

namespace Koerix

open SearchTree

variable {K V : Type} [LinearOrder K]

namespace Map

variable {m m' : Map K V} {t : SearchTree ℕ K V} {parent : Option ℕ}
  {this n a : ℕ} {k : K} {S : Set ℕ}

/-- What `MapEntry::erase` writes if it returns: a child moves up, and the right child is inserted
below it. -/
theorem eraseEntry_eq_some (ha : a ∈ S)
    (hclosed : ∀ b ∈ S, ∀ c, (m.heap.entry b).left = some c ∨ (m.heap.entry b).right = some c →
      c ∈ S)
    (hparent : ∀ c, (m.heap.entry a).parent = some c → c ∈ S)
    (he : m.eraseEntry a = some m') :
    a ∈ m.heap.dom ∧ ∃ parent left right c X Y q, (m.heap.entry a).parent = some parent ∧
      (m.heap.entry a).left = some left ∧ (m.heap.entry a).right = some right ∧
      (c = left ∨ c = right) ∧ Side S X ∧ Side S Y ∧
      m' = ((m.put X (some c)).put Y (some right)).put (.parent right) q := by
  simp only [eraseEntry, Option.bind_eq_bind, Option.bind_eq_some_iff,
    Entries.load_eq_some_iff] at he
  obtain ⟨_, ⟨had, rfl⟩, right, hright, left, hleft, hr, -, hl, -, parent, hpar, X, hX, m₁, hm₁,
    hi⟩ := he
  have hpS := hparent parent hpar
  have hXS : Side S X := by
    simp only [me, Option.bind_eq_bind, Option.bind_eq_some_iff] at hX
    obtain ⟨e, -, hX⟩ := hX
    split_ifs at hX
    · cases hX
      exact ⟨parent, hpS, Or.inl rfl⟩
    · cases hX
      exact ⟨parent, hpS, Or.inr rfl⟩
  obtain ⟨-, rfl⟩ := set_eq_some_iff.mp hm₁
  have hcS : (if hl < hr then right else left) ∈ S := by
    split_ifs
    · exact hclosed a ha right (Or.inr hright)
    · exact hclosed a ha left (Or.inl hleft)
  have hval : (m.put X (some (if hl < hr then right else left))).val (.parent a) = some parent :=
    hXS.parent_put.trans hpar
  obtain ⟨Y, q, hY, hm'⟩ := insertAt_eq_some (.parent a) (S := S) (by
    intro b hb c hc
    rcases hXS.links_put hc with hc | hc
    · exact hclosed b hb c hc
    · cases hc
      exact hcS) (by
    intro c hc
    rw [hval] at hc
    cases hc
    exact hpS) hi
  refine ⟨had, parent, left, right, _, X, Y, q, hpar, hleft, hright, ?_, hXS, ?_, hm'⟩
  · split_ifs
    · exact Or.inr rfl
    · exact Or.inl rfl
  · rcases hY with ⟨-, hnone, -⟩ | ⟨b, hb, hY, -⟩
    · rw [hval] at hnone
      cases hnone
    · exact ⟨b, hb, hY⟩

/-- The entries are in a search tree, and all of them but the root point to their parents. -/
def WellFormed (m : Map K V) : Prop := ∃ t, m.Represents t ∧ m.heap.Linked t

/-- What one expects of `erase`. -/
def EraseOk (m : Map K V) (k : K) : Prop :=
  ∃ b m', m.erase k = some (b, m') ∧ (b = true ↔ ∃ a, m.find k = some (some a)) ∧
    m'.find k = some none ∧ (∀ j, j ≠ k → m'.lookup j = m.lookup j) ∧ m'.WellFormed

namespace Represents

theorem erase_absent (h : m.Represents t) (hp : m.heap.Parented none t)
    (hk : m.find k = some none) : m.EraseOk k := by
  refine ⟨false, m, ?_, ?_, hk, fun _ _ => rfl, t, h, hp.linked⟩
  · rw [erase, hk]
    rfl
  · simp [hk]

/-- The left child of an erased entry cannot be in place afterwards. -/
theorem erase_present (h : m.Represents t) (hp : m.heap.Parented none t) {v : V}
    (hf : t.find k = some (a, v)) : ¬ m.EraseOk k := by
  rintro ⟨b, m', he, -, -, hrest, t', ht', hlinked⟩
  have hmem := mem_ids_of_find hf
  obtain ⟨-, hkey, -⟩ := h.shape.entry_of_find hf
  simp only [erase, h.find_eq, hf, Option.map_some, Option.bind_eq_bind, Option.bind_some,
    Option.bind_eq_some_iff, Option.pure_def, Option.some.injEq, Prod.mk.injEq] at he
  obtain ⟨m₁, hm₁, -, rfl⟩ := he
  obtain ⟨-, parent, left, right, c, X, Y, q, -, hleft, hright, hc, hX, hY, rfl⟩ :=
    eraseEntry_eq_some (S := Set.univ) trivial (fun _ _ _ _ => trivial) (fun _ _ => trivial) hm₁
  have hlt := (h.shape.child_key h.ordered hmem).1 hleft
  have hgt := (h.shape.child_key h.ordered hmem).2 hright
  have hlr : left ≠ right := by
    rintro rfl
    exact lt_asymm hlt hgt
  have hleftmem := h.shape.mem_child hmem (Or.inl hleft)
  have hrightmem := h.shape.mem_child hmem (Or.inr hright)
  have hparent : (m.heap.entry left).parent = some a := hp.child h.shape hmem (Or.inl hleft)
  set m₂ := ((m.put X (some c)).put Y (some right)).put (.parent right) q with hm₂
  have hroot : m₂.root = m.root := hY.root_put.trans hX.root_put
  have hkeys : ∀ b, (m₂.heap.entry b).key = (m.heap.entry b).key :=
    fun b => key_put.1.trans (key_put.1.trans key_put.1)
  have hparent' : (m₂.heap.entry left).parent = some a := by
    rw [hm₂, entry_put_of_ne (by simpa [Link.holder] using hlr.symm), hY.parent_put, hX.parent_put,
      hparent]
  have hlinks : ∀ b ∈ t.ids, ∀ d, (m₂.heap.entry b).left = some d ∨
      (m₂.heap.entry b).right = some d → d ∈ t.ids := by
    intro b hb d hd
    rw [hm₂, links_put_parent.1, links_put_parent.2] at hd
    rcases hY.links_put hd with hd | hd
    · rcases hX.links_put hd with hd | hd
      · exact h.shape.mem_child hb hd
      · cases hd
        rcases hc with rfl | rfl
        · exact hleftmem
        · exact hrightmem
    · cases hd
      exact hrightmem
  -- the left child is still found, so it is a node of the new tree
  have hsub : ∀ b ∈ t'.ids, b ∈ t.ids :=
    ht'.shape.subset (S := {b | b ∈ t.ids}) (fun b hb => h.shape.mem_root (hroot ▸ hb)) hlinks
  have hlook := hrest (m.heap.entry left).key (hkey ▸ hlt.ne)
  rw [ht'.lookup_eq, h.lookup_eq, h.shape.find_key h.ordered hleftmem, Option.map_some,
    Option.some.injEq, Option.map_eq_some_iff] at hlook
  obtain ⟨⟨b, w⟩, hb, -⟩ := hlook
  have hbkey := (hkeys b).symm.trans (ht'.shape.entry_of_find hb).2.1
  have hbmem := mem_ids_of_find hb
  have hbfind := h.shape.find_key h.ordered (hsub b hbmem)
  rw [hbkey, h.shape.find_key h.ordered hleftmem, Option.some.injEq, Prod.mk.injEq] at hbfind
  obtain ⟨rfl, -⟩ := hbfind
  -- but the entry that it points to is gone
  obtain ⟨d, hd, hdp⟩ := hlinked.parent_mem ht'.shape hbmem (by
    intro he
    rw [hp.parent_root h.shape (hroot ▸ he)] at hparent
    cases hparent)
  obtain rfl : a = d := Option.some.inj (hparent'.symm.trans hdp)
  exact (Finset.mem_erase.mp (ht'.shape.mem_dom hd)).1 rfl

end Represents

/-- Operations of the map's owner. -/
inductive Call (K V : Type)
  | index (key : K) (value : V) (a : ℕ)
  | erase (key : K)

def step (m : Map K V) : Call K V → Option (Map K V)
  | .index key value a => m.index key value a
  | .erase key => (m.erase key).map Prod.snd

/-- An `erase` does what one expects. -/
def Meets (m : Map K V) : Call K V → Prop
  | .index _ _ _ => True
  | .erase key => m.EraseOk key

/-- An `erase` is given a key that is not in the map. -/
def Misses (m : Map K V) : Call K V → Prop
  | .index _ _ _ => True
  | .erase key => m.find key = some none

/-- The map is in order, its root included. -/
def Sound (m : Map K V) : Prop := ∃ t, m.Represents t ∧ m.heap.Parented none t

theorem sound_empty (h : Entries K V) : (empty h).Sound :=
  ⟨.leaf, ⟨rfl, List.nodup_nil, trivial⟩, trivial⟩

theorem Sound.eraseOk_iff (h : m.Sound) : m.EraseOk k ↔ m.find k = some none := by
  obtain ⟨t, ht, hp⟩ := h
  refine ⟨fun hok => ?_, ht.erase_absent hp⟩
  rw [ht.find_eq]
  cases hf : t.find k with
  | none => rfl
  | some c => exact absurd hok (ht.erase_present hp hf)

theorem Sound.step {c : Call K V} (h : m.Sound) (hok : m.Misses c) (hs : m.step c = some m') :
    m'.Sound := by
  cases c with
  | index key value a =>
    obtain ⟨t, ht, hp⟩ := h
    obtain ⟨t', ht', hp', -⟩ := ht.index hs
    exact ⟨t', ht', hp' hp⟩
  | erase key =>
    have hmiss : m.find key = some none := hok
    simp only [Map.step, Map.erase, hmiss, Option.bind_eq_bind, Option.bind_some, Option.map_some,
      Option.some.injEq] at hs
    exact hs ▸ h

/-- On a map that is built by `operator[]` and `erase`, every `erase` does what one expects
exactly if none is given a key that is in the map. -/
theorem eraseOk_run_iff (h : Entries K V) (calls : List (Call K V)) :
    Run.Guarded step Meets (empty h) calls ↔ Run.Guarded step Misses (empty h) calls := by
  refine Run.guarded_congr (fun m c hm => ?_) (fun m c m' hm hok hs => hm.step hok hs)
    (sound_empty h) calls
  cases c with
  | index key value a => exact Iff.rfl
  | erase key => exact hm.eraseOk_iff

/-- No entries. -/
def noEntries : Entries ℕ ℕ := ⟨∅, fun _ => ⟨0, 0, none, none, none⟩⟩

/-- Erasing the only key of a map follows a null pointer. -/
theorem not_eraseOk_single : ∃ m : Map ℕ ℕ, (empty noEntries).step (.index 1 7 0) = some m ∧
    m.find 1 = some (some 0) ∧ m.erase 1 = none ∧ ¬ m.Meets (.erase 1) := by
  obtain ⟨m, hm⟩ := Option.isSome_iff_exists.mp
    (show ((empty noEntries).step (.index 1 7 0)).isSome from by decide +kernel)
  have hfind : ((empty noEntries).step (.index 1 7 0)).bind (fun m => m.find 1) =
      some (some 0) := by decide +kernel
  have hnone : ((empty noEntries).step (.index 1 7 0)).map (fun m => (m.erase 1).isSome) =
      some false := by decide +kernel
  rw [hm, Option.bind_some] at hfind
  rw [hm, Option.map_some, Option.some.injEq, Option.isSome_eq_false_iff,
    Option.isNone_iff_eq_none] at hnone
  refine ⟨m, hm, hfind, hnone, ?_⟩
  rintro ⟨b, m', he, -⟩
  rw [hnone] at he
  cases he

end Map

end Koerix
