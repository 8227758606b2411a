import Mathlib.Order.Lattice
import Mathlib.Data.List.Nodup
import Mathlib.Order.Basic

/-! # Binary search trees

Unbalanced search trees whose nodes carry an identity besides key and value. New keys
become leaves, so that a tree is determined by the order in which its nodes came.
-/

/-- Binary trees with keys and values, and a name for each node. -/
inductive SearchTree (ι K V : Type*)
  | leaf
  | node (id : ι) (key : K) (value : V) (left right : SearchTree ι K V)

namespace SearchTree

variable {ι K V : Type*}

/-- The names of the nodes, parents before children. -/
def ids : SearchTree ι K V → List ι
  | leaf => []
  | node a _ _ l r => a :: (l.ids ++ r.ids)

def keys : SearchTree ι K V → List K
  | leaf => []
  | node _ k _ l r => k :: (l.keys ++ r.keys)

def size (t : SearchTree ι K V) : ℕ := t.ids.length

/-- The tree without the names of its nodes. -/
def strip : SearchTree ι K V → SearchTree Unit K V
  | leaf => leaf
  | node _ k v l r => node () k v l.strip r.strip

@[simp] theorem ids_leaf : (leaf : SearchTree ι K V).ids = [] := rfl

@[simp] theorem ids_node (a : ι) (k : K) (v : V) (l r : SearchTree ι K V) :
    (node a k v l r).ids = a :: (l.ids ++ r.ids) := rfl

@[simp] theorem keys_leaf : (leaf : SearchTree ι K V).keys = [] := rfl

@[simp] theorem keys_node (a : ι) (k : K) (v : V) (l r : SearchTree ι K V) :
    (node a k v l r).keys = k :: (l.keys ++ r.keys) := rfl

@[simp] theorem size_node (a : ι) (k : K) (v : V) (l r : SearchTree ι K V) :
    (node a k v l r).size = l.size + r.size + 1 := by simp [size]

theorem size_le_one_iff {t : SearchTree ι K V} (hn : t.ids.Nodup) :
    t.size ≤ 1 ↔ ∀ a ∈ t.ids, ∀ b ∈ t.ids, a = b := by
  rw [size]
  generalize t.ids = l at hn ⊢
  cases l with
  | nil => simp
  | cons a l =>
    cases l with
    | nil => simp
    | cons b l =>
      rw [List.nodup_cons, List.mem_cons, not_or] at hn
      constructor
      · intro hle
        simp only [List.length_cons] at hle
        omega
      · intro h
        exact absurd (h a (by simp) b (by simp)) hn.1.1

theorem length_keys (t : SearchTree ι K V) : t.keys.length = t.size := by
  induction t with
  | leaf => rfl
  | node a k v l r ihl ihr => simp [ihl, ihr]

theorem size_strip (t : SearchTree ι K V) : t.strip.size = t.size := by
  induction t with
  | leaf => rfl
  | node a k v l r ihl ihr => rw [strip, size_node, size_node, ihl, ihr]

theorem keys_strip (t : SearchTree ι K V) : t.strip.keys = t.keys := by
  induction t with
  | leaf => rfl
  | node a k v l r ihl ihr => rw [strip, keys_node, keys_node, ihl, ihr]

variable [LinearOrder K]

/-- Smaller keys are on the left, larger keys on the right. -/
@[simp] def Ordered : SearchTree ι K V → Prop
  | leaf => True
  | node _ k _ l r => (∀ j ∈ l.keys, j < k) ∧ (∀ j ∈ r.keys, k < j) ∧ l.Ordered ∧ r.Ordered

/-- The node with the given key. -/
@[simp] def find (key : K) : SearchTree ι K V → Option (ι × V)
  | leaf => none
  | node a k v l r => if key < k then l.find key else if k < key then r.find key else some (a, v)

/-- Hang a new node below the last one on the way to its key. -/
@[simp] def insert (id : ι) (key : K) (value : V) : SearchTree ι K V → SearchTree ι K V
  | leaf => node id key value leaf leaf
  | node a k v l r =>
    if key < k then node a k v (l.insert id key value) r else node a k v l (r.insert id key value)

/-- Change the value at a key. -/
@[simp] def assign (key : K) (value : V) : SearchTree ι K V → SearchTree ι K V
  | leaf => leaf
  | node a k v l r =>
    if key < k then node a k v (l.assign key value) r
    else if k < key then node a k v l (r.assign key value)
    else node a k value l r

variable {t l r : SearchTree ι K V} {a b : ι} {j k : K} {v w : V}

theorem find_isSome_iff (h : t.Ordered) : (t.find k).isSome ↔ k ∈ t.keys := by
  induction t with
  | leaf => simp [find]
  | node a k' v l r ihl ihr =>
    obtain ⟨hl, hr, ho, ho'⟩ := h
    rw [find, keys_node, List.mem_cons, List.mem_append]
    rcases lt_trichotomy k k' with hlt | rfl | hgt
    · have hnr : k ∉ r.keys := fun hm => lt_asymm hlt (hr k hm)
      simp [hlt, ihl ho, hlt.ne, hnr]
    · simp
    · have hnl : k ∉ l.keys := fun hm => lt_asymm hgt (hl k hm)
      simp [hgt, hgt.not_gt, ihr ho', hgt.ne', hnl]

theorem Ordered.nodup_keys (h : t.Ordered) : t.keys.Nodup := by
  induction t with
  | leaf => exact .nil
  | node a k v l r ihl ihr =>
    obtain ⟨hl, hr, ho, ho'⟩ := h
    rw [keys_node, List.nodup_cons, List.mem_append, not_or]
    refine ⟨⟨fun hk => (hl k hk).false, fun hk => (hr k hk).false⟩, (ihl ho).append (ihr ho') ?_⟩
    intro j hj hj'
    exact lt_asymm (hl j hj) (hr j hj')

theorem find_eq_none_iff (h : t.Ordered) : t.find k = none ↔ k ∉ t.keys := by
  rw [← find_isSome_iff h, Option.not_isSome_iff_eq_none]

theorem mem_ids_of_find (h : t.find k = some (a, v)) : a ∈ t.ids := by
  induction t with
  | leaf => cases h
  | node b k' w l r ihl ihr =>
    rw [find] at h
    rw [ids_node, List.mem_cons, List.mem_append]
    split_ifs at h
    · exact Or.inr (Or.inl (ihl h))
    · exact Or.inr (Or.inr (ihr h))
    · cases h
      exact Or.inl rfl

theorem ids_insert : (t.insert a k v).ids.Perm (a :: t.ids) := by
  induction t with
  | leaf => exact .refl _
  | node b k' w l r ihl ihr =>
    rw [insert]
    split_ifs
    · exact ((ihl.append_right r.ids).cons b).trans (.swap a b _)
    · refine (((ihr.append_left l.ids).trans List.perm_middle).cons b).trans (.swap a b _)

theorem keys_insert : (t.insert a k v).keys.Perm (k :: t.keys) := by
  induction t with
  | leaf => exact .refl _
  | node b k' w l r ihl ihr =>
    rw [insert]
    split_ifs
    · exact ((ihl.append_right r.keys).cons k').trans (.swap k k' _)
    · refine (((ihr.append_left l.keys).trans List.perm_middle).cons k').trans (.swap k k' _)

theorem Ordered.insert (h : t.Ordered) (hk : k ∉ t.keys) : (t.insert a k v).Ordered := by
  induction t with
  | leaf => exact ⟨by simp, by simp, trivial, trivial⟩
  | node b k' w l r ihl ihr =>
    obtain ⟨hl, hr, ho, ho'⟩ := h
    simp only [keys_node, List.mem_cons, List.mem_append, not_or] at hk
    rw [SearchTree.insert]
    split_ifs with hlt
    · refine ⟨fun j hj => ?_, hr, ihl ho hk.2.1, ho'⟩
      rcases List.mem_cons.mp (keys_insert.mem_iff.mp hj) with rfl | hj
      · exact hlt
      · exact hl j hj
    · refine ⟨hl, fun j hj => ?_, ho, ihr ho' hk.2.2⟩
      rcases List.mem_cons.mp (keys_insert.mem_iff.mp hj) with rfl | hj
      · exact lt_of_le_of_ne (not_lt.mp hlt) (Ne.symm hk.1)
      · exact hr j hj

theorem find_insert_self (h : t.Ordered) (hk : k ∉ t.keys) :
    (t.insert a k v).find k = some (a, v) := by
  induction t with
  | leaf => simp [insert, find]
  | node b k' w l r ihl ihr =>
    obtain ⟨-, -, ho, ho'⟩ := h
    simp only [keys_node, List.mem_cons, List.mem_append, not_or] at hk
    rw [insert]
    split_ifs with hlt
    · rw [find, if_pos hlt, ihl ho hk.2.1]
    · have hgt : k' < k := lt_of_le_of_ne (not_lt.mp hlt) (Ne.symm hk.1)
      rw [find, if_neg hlt, if_pos hgt, ihr ho' hk.2.2]

theorem find_insert_of_ne (hne : j ≠ k) : (t.insert a k v).find j = t.find j := by
  induction t with
  | leaf =>
    rcases lt_or_gt_of_ne hne with hlt | hgt
    · simp [insert, find, hlt]
    · simp [insert, find, hgt, hgt.not_gt]
  | node b k' w l r ihl ihr =>
    rw [insert]
    split_ifs with hlt
    · rw [find, find, ihl]
    · rw [find, find, ihr]

theorem ids_assign : (t.assign k v).ids = t.ids := by
  induction t with
  | leaf => rfl
  | node b k' w l r ihl ihr =>
    rw [assign]
    split_ifs <;> simp [ihl, ihr]

theorem keys_assign : (t.assign k v).keys = t.keys := by
  induction t with
  | leaf => rfl
  | node b k' w l r ihl ihr =>
    rw [assign]
    split_ifs <;> simp [ihl, ihr]

theorem Ordered.assign (h : t.Ordered) : (t.assign k v).Ordered := by
  induction t with
  | leaf => trivial
  | node b k' w l r ihl ihr =>
    obtain ⟨hl, hr, ho, ho'⟩ := h
    rw [SearchTree.assign]
    split_ifs
    · exact ⟨by rwa [keys_assign], hr, ihl ho, ho'⟩
    · exact ⟨hl, by rwa [keys_assign], ho, ihr ho'⟩
    · exact ⟨hl, hr, ho, ho'⟩

theorem find_assign_self (h : (t.find k).isSome) :
    ((t.assign k v).find k).map Prod.snd = some v := by
  induction t with
  | leaf => cases h
  | node b k' w l r ihl ihr =>
    rw [find] at h
    rw [assign]
    split_ifs at h ⊢ with h1 h2
    · rw [find, if_pos h1, ihl h]
    · rw [find, if_neg h1, if_pos h2, ihr h]
    · rw [find, if_neg h1, if_neg h2, Option.map_some]

theorem map_fst_find_assign :
    ((t.assign k v).find j).map Prod.fst = (t.find j).map Prod.fst := by
  induction t with
  | leaf => rfl
  | node b k' w l r ihl ihr =>
    rw [assign]
    split_ifs
    · rw [find, find]
      split_ifs
      · exact ihl
      · rfl
      · rfl
    · rw [find, find]
      split_ifs
      · rfl
      · exact ihr
      · rfl
    · rw [find, find]
      split_ifs <;> rfl

theorem find_assign_of_ne (hne : j ≠ k) : (t.assign k v).find j = t.find j := by
  induction t with
  | leaf => rfl
  | node b k' w l r ihl ihr =>
    rw [assign]
    split_ifs with h1 h2
    · rw [find, find, ihl]
    · rw [find, find, ihr]
    · obtain rfl : k = k' := le_antisymm (not_lt.mp h2) (not_lt.mp h1)
      rcases lt_or_gt_of_ne hne with hlt | hgt
      · rw [find, find, if_pos hlt, if_pos hlt]
      · rw [find, find, if_neg hgt.not_gt, if_neg hgt.not_gt, if_pos hgt, if_pos hgt]

theorem ordered_strip (t : SearchTree ι K V) : t.strip.Ordered ↔ t.Ordered := by
  induction t with
  | leaf => rfl
  | node a k v l r ihl ihr => rw [strip, Ordered, Ordered, keys_strip, keys_strip, ihl, ihr]

theorem find_strip (t : SearchTree ι K V) (k : K) :
    (t.strip.find k).map Prod.snd = (t.find k).map Prod.snd := by
  induction t with
  | leaf => rfl
  | node a k' v l r ihl ihr =>
    rw [strip, find, find]
    split_ifs
    · exact ihl
    · exact ihr
    · rfl

end SearchTree
