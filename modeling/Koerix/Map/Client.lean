import Koerix.Lib.Run
import Koerix.Map.Index

/-! # Maps as finite maps

A client of a map keeps the references that `operator[]` returned, and may assign through any
of them later on. Whatever it does, the map is a search tree whose entries know their parents,
and `find` agrees with the finite map of the values that were assigned last.
-/

namespace Koerix

open SearchTree

variable {K V : Type} [LinearOrder K]

/-- What a client does: call `operator[]`, assign through the reference that the `i`-th of these
calls returned, or call `find`. The value of a new entry is `junk` until it is assigned to. -/
inductive Access (K V : Type)
  | index (k : K) (junk : V)
  | assign (i : ℕ) (v : V)
  | find (k : K)

/-- A map, and the entries to which references have been returned, oldest first. -/
structure Client (K V : Type) where
  map : Map K V
  refs : List ℕ

def Client.step (A : Allocator) (c : Client K V) : Access K V → Option (Client K V)
  | .index k junk => do
    let (b, m) ← c.map.ref k junk (A.pick c.map.heap.dom)
    return ⟨m, c.refs ++ [b]⟩
  | .assign i v => do
    let m ← c.map.write (← c.refs[i]?) v
    return { c with map := m }
  | .find k => do
    let _ ← c.map.find k
    return c

/-- A finite map as its client sees it: the keys it asked `operator[]` for, oldest first, and
the value it assigned last to each key. -/
structure History (K V : Type) where
  accessed : List K
  assigned : K → Option V

namespace History

def empty : History K V := ⟨[], fun _ => none⟩

def step (s : History K V) : Access K V → Option (History K V)
  | .index k _ => some { s with accessed := s.accessed ++ [k] }
  | .assign i v =>
    s.accessed[i]?.map fun k => { s with assigned := Function.update s.assigned k (some v) }
  | .find _ => some s

end History

/-- The map represents a tree with the keys and values of the history, in which references
lead to the nodes of their keys. -/
structure Tracks (c : Client K V) (s : History K V) (t : SearchTree ℕ K V) : Prop where
  represents : c.map.Represents t
  parented : c.map.heap.Parented none t
  refs : List.Forall₂ (fun a k => (t.find k).map Prod.fst = some a) c.refs s.accessed
  accessed : ∀ k, (t.find k).isSome → k ∈ s.accessed
  assigned : ∀ k v, s.assigned k = some v → (t.find k).map Prod.snd = some v

namespace Tracks

variable {c : Client K V} {s s' : History K V} {t : SearchTree ℕ K V} {A : Allocator} {k : K}

theorem empty (heap : Entries K V) : Tracks ⟨.empty heap, []⟩ .empty .leaf where
  represents := ⟨rfl, .nil, trivial⟩
  parented := trivial
  refs := .nil
  accessed := by simp [SearchTree.find]
  assigned := by simp [History.empty]

theorem isSome_iff (h : Tracks c s t) : (t.find k).isSome ↔ k ∈ s.accessed := by
  refine ⟨h.accessed k, fun hk => ?_⟩
  obtain ⟨i, hi, rfl⟩ := List.getElem_of_mem hk
  have hlen := h.refs.length_eq
  have hf := h.refs.get (i := i) (by omega) hi
  rw [← Option.isSome_map (f := Prod.fst)]
  rw [List.get_eq_getElem, List.get_eq_getElem] at hf
  rw [hf]
  rfl

/-- `operator[]` of a new key adds a node. -/
theorem insert (h : Tracks c s t) {junk : V} {a : ℕ} {m' : Map K V} (hf : t.find k = none)
    (hup : Map.Updated c.map m' t (t.insert a k junk)) :
    Tracks ⟨m', c.refs ++ [a]⟩ { s with accessed := s.accessed ++ [k] } (t.insert a k junk) := by
  have hk : k ∉ t.keys := (find_eq_none_iff h.represents.ordered).mp hf
  have hself : (t.insert a k junk).find k = some (a, junk) :=
    find_insert_self h.represents.ordered hk
  refine ⟨hup.represents, hup.parented h.parented, ?_, fun j hj => ?_, fun j v hv => ?_⟩
  · refine List.rel_append (h.refs.imp fun b j hj => ?_) (.cons (by rw [hself]; rfl) .nil)
    rw [find_insert_of_ne]
    · exact hj
    · rintro rfl
      simp [hf] at hj
  · rw [List.mem_append, List.mem_singleton]
    rcases eq_or_ne j k with rfl | hne
    · exact Or.inr rfl
    · rw [find_insert_of_ne hne] at hj
      exact Or.inl (h.accessed j hj)
  · have hj := h.assigned j v hv
    rw [find_insert_of_ne]
    · exact hj
    · rintro rfl
      simp [hf] at hj

theorem assign (h : Tracks c s t) {v : V} {m' : Map K V} (hk : (t.find k).isSome)
    (hup : Map.Updated c.map m' t (t.assign k v)) :
    Tracks { c with map := m' } { s with assigned := Function.update s.assigned k (some v) }
      (t.assign k v) := by
  refine ⟨hup.represents, hup.parented h.parented, ?_, fun j hj => ?_, fun j w hw => ?_⟩
  · exact h.refs.imp fun b j hj => map_fst_find_assign.trans hj
  · rw [← Option.isSome_map (f := Prod.fst), map_fst_find_assign, Option.isSome_map] at hj
    exact h.accessed j hj
  · dsimp only at hw
    rcases eq_or_ne j k with rfl | hne
    · rw [Function.update_self] at hw
      rw [find_assign_self hk, hw]
    · rw [Function.update_of_ne hne] at hw
      rw [find_assign_of_ne hne]
      exact h.assigned j w hw

/-- Every step of the finite map is a step of the client. -/
theorem step (h : ∃ t, Tracks c s t) (o : Access K V) (hs : s.step o = some s') :
    ∃ c', c.step A o = some c' ∧ ∃ t, Tracks c' s' t := by
  obtain ⟨t, h⟩ := h
  cases o with
  | index k junk =>
    cases hs
    cases hf : t.find k with
    | none =>
      obtain ⟨m', hm', hup⟩ := h.represents.ref_of_find_eq_none (v := junk) hf (A.fresh _)
      exact ⟨_, by simp [Client.step, hm'], _, h.insert hf hup⟩
    | some p =>
      have hm' := h.represents.ref_of_find (v := junk) (a := A.pick c.map.heap.dom) hf
      refine ⟨⟨c.map, c.refs ++ [p.1]⟩, by simp [Client.step, hm'], t, h.represents, h.parented,
        ?_, fun j hj => ?_, h.assigned⟩
      · exact List.rel_append h.refs (.cons (by rw [hf]; rfl) .nil)
      · exact List.mem_append_left _ (h.accessed j hj)
  | assign i v =>
    rw [History.step, Option.map_eq_some_iff] at hs
    obtain ⟨k, hk, rfl⟩ := hs
    obtain ⟨hi, rfl⟩ := List.getElem?_eq_some_iff.mp hk
    have hlen := h.refs.length_eq
    have href : c.refs[i]? = some c.refs[i] := List.getElem?_eq_getElem (by omega)
    have hf := h.refs.get (i := i) (by omega) hi
    rw [List.get_eq_getElem, List.get_eq_getElem, Option.map_eq_some_iff] at hf
    obtain ⟨⟨b, w⟩, hf, rfl⟩ := hf
    obtain ⟨m', hm', hup⟩ := h.represents.write (v := v) hf
    exact ⟨_, by simp [Client.step, href, hm'], _, h.assign (by rw [hf]; rfl) hup⟩
  | find k =>
    cases hs
    exact ⟨c, by simp [Client.step, h.represents.find_eq], t, h⟩

end Tracks

/-- In every sequence of accesses, assignments through references that have been returned, and
queries, `find` finds exactly the keys that were accessed, with the value assigned last; and the
entries form a search tree without duplicate keys in which all parent links are right. -/
theorem Client.agrees_history (A : Allocator) (heap : Entries K V) {ops : List (Access K V)}
    {s : History K V} (hs : ops.foldlM History.step .empty = some s) :
    ∃ c, ops.foldlM (Client.step A) ⟨.empty heap, []⟩ = some c ∧
      (∀ k, ∃ p, c.map.find k = some p ∧ (p ≠ none ↔ k ∈ s.accessed)) ∧
      (∀ k v, s.assigned k = some v → c.map.lookup k = some (some v)) ∧
      ∃ t, c.map.heap.Shape c.map.root t ∧ t.keys.Nodup ∧ t.Ordered ∧
        c.map.heap.Parented none t := by
  obtain ⟨c, hc, t, h⟩ := Run.foldlM_simulation (R := fun c s => ∃ t, Tracks c s t)
    (fun c s o s' h hs => Tracks.step h o hs) ⟨_, Tracks.empty heap⟩ hs
  refine ⟨c, hc, fun k => ⟨_, h.represents.find_eq, ?_⟩, fun k v hv => ?_, t, h.represents.shape,
    h.represents.ordered.nodup_keys, h.represents.ordered, h.parented⟩
  · rw [← h.isSome_iff, Ne, Option.map_eq_none_iff, ← Ne, Option.ne_none_iff_isSome]
  · rw [h.represents.lookup_eq, h.assigned k v hv]

theorem Client.agrees_history_two : ∃ c : Client ℕ ℕ,
    [.index 2 0, .index 1 0, .assign 0 7, .find 1].foldlM (Client.step .next)
      ⟨.empty ⟨∅, fun _ => ⟨0, 0, none, none, none⟩⟩, []⟩ = some c ∧
      c.map.lookup 2 = some (some 7) := by
  obtain ⟨c, hc, -, hv, -⟩ := Client.agrees_history (K := ℕ) (V := ℕ) .next
    ⟨∅, fun _ => ⟨0, 0, none, none, none⟩⟩
    (show [Access.index 2 0, .index 1 0, .assign 0 7, .find 1].foldlM History.step .empty =
      some _ from rfl)
  exact ⟨c, hc, hv 2 7 rfl⟩

end Koerix
