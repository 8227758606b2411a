import Koerix.Map.Basic
import Mathlib.Data.Finset.Dedup

/-! # Maps as search trees

The entries below a pointer form a tree, in which every entry but the root may point back
to its parent. On a search tree `find` finds exactly the keys that are there.
-/

namespace Koerix

open SearchTree

variable {K V : Type}

namespace Entries

variable {h h' : Entries K V} {a b : ℕ} {e : MapEntry K V}

theorem load_of_mem (ha : a ∈ h.dom) : h.load a = some (h.entry a) := if_pos ha

@[simp] theorem entry_store_self : (h.store a e).entry a = e := Function.update_self _ _ _

theorem entry_store_of_ne (hb : b ≠ a) : (h.store a e).entry b = h.entry b :=
  Function.update_of_ne hb _ _

@[simp] theorem entry_grow_self : (h.grow a e).entry a = e := Function.update_self _ _ _

theorem entry_grow_of_ne (hb : b ≠ a) : (h.grow a e).entry b = h.entry b :=
  Function.update_of_ne hb _ _

@[simp] theorem mem_grow : b ∈ (h.grow a e).dom ↔ b = a ∨ b ∈ h.dom := Finset.mem_insert

theorem load_eq_some_iff : h.load a = some e ↔ a ∈ h.dom ∧ h.entry a = e := by
  simp [load]

end Entries

/-- The entry that a pointer variable is part of. -/
def Link.holder : Link → Option ℕ
  | .root => none
  | .left a => some a
  | .right a => some a
  | .parent a => some a

namespace Map

/-- What a pointer variable holds, and what it is like to write it, where both are defined. -/
def val (m : Map K V) : Link → Option ℕ
  | .root => m.root
  | .left a => (m.heap.entry a).left
  | .right a => (m.heap.entry a).right
  | .parent a => (m.heap.entry a).parent

def put (m : Map K V) (link : Link) (p : Option ℕ) : Map K V :=
  match link with
  | .root => { m with root := p }
  | .left a => { m with heap := m.heap.store a { m.heap.entry a with left := p } }
  | .right a => { m with heap := m.heap.store a { m.heap.entry a with right := p } }
  | .parent a => { m with heap := m.heap.store a { m.heap.entry a with parent := p } }

variable {m m' : Map K V} {link : Link} {p q : Option ℕ} {a b : ℕ}

theorem get_eq_some_iff : m.get link = some p ↔
    (∀ a, link.holder = some a → a ∈ m.heap.dom) ∧ m.val link = p := by
  cases link <;> simp [get, val, Link.holder, Entries.load]

theorem set_eq_some_iff : m.set link p = some m' ↔
    (∀ a, link.holder = some a → a ∈ m.heap.dom) ∧ m' = m.put link p := by
  cases link with
  | root => simp [set, put, Link.holder, eq_comm]
  | _ =>
    simp only [set, put, Link.holder, Option.map_eq_some_iff, Entries.load_eq_some_iff,
      Option.some.injEq, forall_eq']
    constructor
    · rintro ⟨e, ⟨ha, rfl⟩, rfl⟩
      exact ⟨ha, rfl⟩
    · rintro ⟨ha, rfl⟩
      exact ⟨_, ⟨ha, rfl⟩, rfl⟩

@[simp] theorem dom_put : (m.put link p).heap.dom = m.heap.dom := by cases link <;> rfl

theorem entry_put_of_ne (hb : link.holder ≠ some b) :
    (m.put link p).heap.entry b = m.heap.entry b := by
  cases link with
  | root => rfl
  | _ => exact Function.update_of_ne (fun he => hb (by rw [he]; rfl)) _ _

theorem entry_put_val (b : ℕ) : (m.put link (m.val link)).heap.entry b = m.heap.entry b := by
  cases link with
  | root => rfl
  | _ a =>
    rcases eq_or_ne b a with rfl | hne
    · exact Function.update_self _ _ _
    · exact Function.update_of_ne hne _ _

theorem val_put_self : (m.put link p).val link = p := by
  cases link <;> simp [put, val, Entries.store]

theorem links_put_parent : ((m.put (.parent a) p).heap.entry b).left = (m.heap.entry b).left ∧
    ((m.put (.parent a) p).heap.entry b).right = (m.heap.entry b).right := by
  rcases eq_or_ne b a with rfl | hne
  · simp [put, Entries.store]
  · rw [entry_put_of_ne (by simpa [Link.holder] using hne.symm)]
    exact ⟨rfl, rfl⟩

end Map

namespace Entries

/-- The entries below a pointer are the nodes of a tree. -/
def Shape (h : Entries K V) : Option ℕ → SearchTree ℕ K V → Prop
  | p, .leaf => p = none
  | p, .node a k v l r => p = some a ∧ a ∈ h.dom ∧ (h.entry a).key = k ∧ (h.entry a).value = v ∧
      h.Shape (h.entry a).left l ∧ h.Shape (h.entry a).right r

/-- The root of the tree points to `p`, and all other entries point to their parents. -/
def Parented (h : Entries K V) : Option ℕ → SearchTree ℕ K V → Prop
  | _, .leaf => True
  | p, .node a _ _ l r =>
    (h.entry a).parent = p ∧ h.Parented (some a) l ∧ h.Parented (some a) r

/-- All entries but the root point to their parents. -/
def Linked (h : Entries K V) : SearchTree ℕ K V → Prop
  | .leaf => True
  | .node a _ _ l r => h.Parented (some a) l ∧ h.Parented (some a) r

/-- Entries point to entries of the tree, or to null. -/
def ParentsIn (h : Entries K V) (t : SearchTree ℕ K V) : Prop :=
  ∀ a ∈ t.ids, ∀ b, (h.entry a).parent = some b → b ∈ t.ids

variable {h h' : Entries K V} {a c : ℕ} {p : Option ℕ} {t : SearchTree ℕ K V} {n : ℕ} {S : Set ℕ}

theorem Shape.congr (hs : h.Shape p t) (hdom : ∀ a ∈ t.ids, a ∈ h.dom → a ∈ h'.dom)
    (hentry : ∀ a ∈ t.ids, h'.entry a = h.entry a) : h'.Shape p t := by
  induction t generalizing p with
  | leaf => exact hs
  | node a k v l r ihl ihr =>
    obtain ⟨rfl, ha, hk, hv, hl, hr⟩ := hs
    simp only [ids_node, List.mem_cons, List.mem_append] at hdom hentry
    have hea := hentry a (Or.inl rfl)
    refine ⟨rfl, hdom a (Or.inl rfl) ha, hea ▸ hk, hea ▸ hv, ?_, ?_⟩
    · rw [hea]
      exact ihl hl (fun b hb => hdom b (Or.inr (Or.inl hb)))
        fun b hb => hentry b (Or.inr (Or.inl hb))
    · rw [hea]
      exact ihr hr (fun b hb => hdom b (Or.inr (Or.inr hb)))
        fun b hb => hentry b (Or.inr (Or.inr hb))

theorem Parented.congr (hp : h.Parented p t)
    (hentry : ∀ a ∈ t.ids, (h'.entry a).parent = (h.entry a).parent) : h'.Parented p t := by
  induction t generalizing p with
  | leaf => trivial
  | node a k v l r ihl ihr =>
    simp only [ids_node, List.mem_cons, List.mem_append] at hentry
    exact ⟨(hentry a (Or.inl rfl)).trans hp.1,
      ihl hp.2.1 fun b hb => hentry b (Or.inr (Or.inl hb)),
      ihr hp.2.2 fun b hb => hentry b (Or.inr (Or.inr hb))⟩

theorem Parented.linked (hp : h.Parented p t) : h.Linked t := by
  cases t with
  | leaf => trivial
  | node a k v l r => exact hp.2

theorem Shape.mem_dom (hs : h.Shape p t) (ha : a ∈ t.ids) : a ∈ h.dom := by
  induction t generalizing p with
  | leaf => cases ha
  | node b k v l r ihl ihr =>
    obtain ⟨-, hb, -, -, hl, hr⟩ := hs
    rw [ids_node, List.mem_cons, List.mem_append] at ha
    rcases ha with rfl | ha | ha
    · exact hb
    · exact ihl hl ha
    · exact ihr hr ha

theorem Shape.size_le (hs : h.Shape p t) (hn : t.ids.Nodup) : t.size ≤ h.dom.card := by
  rw [size, ← List.toFinset_card_of_nodup hn]
  exact Finset.card_le_card fun a ha => hs.mem_dom (List.mem_toFinset.mp ha)

theorem Shape.mem_root (hs : h.Shape p t) (hp : p = some c) : c ∈ t.ids := by
  cases t with
  | leaf =>
    cases hs
    cases hp
  | node b k v l r =>
    obtain ⟨rfl, -⟩ := hs
    cases hp
    simp

theorem Parented.parent_root {q : Option ℕ} (hq : h.Parented q t) (hs : h.Shape p t)
    (hp : p = some c) : (h.entry c).parent = q := by
  cases t with
  | leaf =>
    cases hs
    cases hp
  | node b k v l r =>
    obtain ⟨rfl, -⟩ := hs
    cases hp
    exact hq.1

theorem Shape.mem_child (hs : h.Shape p t) (ha : a ∈ t.ids)
    (hc : (h.entry a).left = some c ∨ (h.entry a).right = some c) : c ∈ t.ids := by
  induction t generalizing p with
  | leaf => cases ha
  | node b k v l r ihl ihr =>
    obtain ⟨-, -, -, -, hl, hr⟩ := hs
    rw [ids_node, List.mem_cons, List.mem_append] at ha ⊢
    rcases ha with rfl | ha | ha
    · rcases hc with hc | hc
      · exact Or.inr (Or.inl (hl.mem_root hc))
      · exact Or.inr (Or.inr (hr.mem_root hc))
    · exact Or.inr (Or.inl (ihl hl ha))
    · exact Or.inr (Or.inr (ihr hr ha))

theorem Shape.subset (hs : h.Shape p t) (hp : ∀ a, p = some a → a ∈ S)
    (hclosed : ∀ a ∈ S, ∀ c, (h.entry a).left = some c ∨ (h.entry a).right = some c → c ∈ S) :
    ∀ a ∈ t.ids, a ∈ S := by
  induction t generalizing p with
  | leaf => simp
  | node b k v l r ihl ihr =>
    obtain ⟨rfl, -, -, -, hl, hr⟩ := hs
    have hb := hp b rfl
    intro a ha
    rw [ids_node, List.mem_cons, List.mem_append] at ha
    rcases ha with rfl | ha | ha
    · exact hb
    · exact ihl hl (fun c hc => hclosed b hb c (Or.inl hc)) a ha
    · exact ihr hr (fun c hc => hclosed b hb c (Or.inr hc)) a ha

theorem Parented.child (hs : h.Shape p t) {q : Option ℕ} (hp : h.Parented q t) (ha : a ∈ t.ids)
    (hc : (h.entry a).left = some c ∨ (h.entry a).right = some c) :
    (h.entry c).parent = some a := by
  induction t generalizing p q with
  | leaf => cases ha
  | node b k v l r ihl ihr =>
    obtain ⟨-, -, -, -, hl, hr⟩ := hs
    obtain ⟨-, hpl, hpr⟩ := hp
    rw [ids_node, List.mem_cons, List.mem_append] at ha
    rcases ha with rfl | ha | ha
    · rcases hc with hc | hc
      · exact hpl.parent_root hl hc
      · exact hpr.parent_root hr hc
    · exact ihl hl hpl ha
    · exact ihr hr hpr ha

theorem Parented.parent_mem {q : Option ℕ} (hp : h.Parented q t) (hc : c ∈ t.ids) :
    (h.entry c).parent = q ∨ ∃ b ∈ t.ids, (h.entry c).parent = some b := by
  induction t generalizing q with
  | leaf => cases hc
  | node b k v l r ihl ihr =>
    obtain ⟨hb, hpl, hpr⟩ := hp
    rw [ids_node, List.mem_cons, List.mem_append] at hc
    simp only [ids_node, List.mem_cons, List.mem_append]
    rcases hc with rfl | hc | hc
    · exact Or.inl hb
    · rcases ihl hpl hc with he | ⟨d, hd, he⟩
      · exact Or.inr ⟨b, Or.inl rfl, he⟩
      · exact Or.inr ⟨d, Or.inr (Or.inl hd), he⟩
    · rcases ihr hpr hc with he | ⟨d, hd, he⟩
      · exact Or.inr ⟨b, Or.inl rfl, he⟩
      · exact Or.inr ⟨d, Or.inr (Or.inr hd), he⟩

theorem Parented.parentsIn (hp : h.Parented none t) : h.ParentsIn t := by
  intro a ha b hb
  rcases hp.parent_mem ha with hn | ⟨c, hc, he⟩
  · rw [hn] at hb
    cases hb
  · rw [he] at hb
    cases hb
    exact hc

theorem Linked.parent_mem (hs : h.Shape p t) (hl : h.Linked t) (hc : c ∈ t.ids)
    (hne : p ≠ some c) : ∃ b ∈ t.ids, (h.entry c).parent = some b := by
  cases t with
  | leaf => cases hc
  | node b k v l r =>
    obtain ⟨rfl, -⟩ := hs
    have hp : h.Parented (h.entry b).parent (.node b k v l r) := ⟨rfl, hl⟩
    rw [ids_node, List.mem_cons, List.mem_append] at hc
    simp only [ids_node, List.mem_cons, List.mem_append]
    have hsub : ∀ u : SearchTree ℕ K V, h.Parented (some b) u →
      (∀ d ∈ u.ids, d ∈ l.ids ∨ d ∈ r.ids) →
        c ∈ u.ids → ∃ d, (d = b ∨ d ∈ l.ids ∨ d ∈ r.ids) ∧ (h.entry c).parent = some d := by
      intro u hu hin hcu
      rcases hu.parent_mem hcu with he | ⟨d, hd, he⟩
      · exact ⟨b, Or.inl rfl, he⟩
      · exact ⟨d, Or.inr (hin d hd), he⟩
    rcases hc with rfl | hc | hc
    · exact absurd rfl hne
    · exact hsub l hl.1 (fun d => Or.inl) hc
    · exact hsub r hl.2 (fun d => Or.inr) hc

theorem Shape.key_mem (hs : h.Shape p t) (ha : a ∈ t.ids) : (h.entry a).key ∈ t.keys := by
  induction t generalizing p with
  | leaf => cases ha
  | node b k v l r ihl ihr =>
    obtain ⟨-, -, hk, -, hl, hr⟩ := hs
    rw [ids_node, List.mem_cons, List.mem_append] at ha
    rw [keys_node, List.mem_cons, List.mem_append]
    rcases ha with rfl | ha | ha
    · exact Or.inl hk
    · exact Or.inr (Or.inl (ihl hl ha))
    · exact Or.inr (Or.inr (ihr hr ha))

variable [LinearOrder K] {key : K} {v : V}

theorem Shape.find_key (hs : h.Shape p t) (ho : t.Ordered) (ha : a ∈ t.ids) :
    t.find (h.entry a).key = some (a, (h.entry a).value) := by
  induction t generalizing p with
  | leaf => cases ha
  | node b k v l r ihl ihr =>
    obtain ⟨-, -, hk, hv, hl, hr⟩ := hs
    obtain ⟨hlt, hgt, hol, hor⟩ := ho
    rw [ids_node, List.mem_cons, List.mem_append] at ha
    rw [SearchTree.find]
    rcases ha with rfl | ha | ha
    · simp [hk, hv]
    · rw [if_pos (hlt _ (hl.key_mem ha)), ihl hl hol ha]
    · have hkey := hgt _ (hr.key_mem ha)
      rw [if_neg hkey.not_gt, if_pos hkey, ihr hr hor ha]

theorem Shape.child_key (hs : h.Shape p t) (ho : t.Ordered) (ha : a ∈ t.ids) :
    ((h.entry a).left = some c → (h.entry c).key < (h.entry a).key) ∧
      ((h.entry a).right = some c → (h.entry a).key < (h.entry c).key) := by
  induction t generalizing p with
  | leaf => cases ha
  | node b k v l r ihl ihr =>
    obtain ⟨-, -, hk, -, hl, hr⟩ := hs
    obtain ⟨hlt, hgt, hol, hor⟩ := ho
    rw [ids_node, List.mem_cons, List.mem_append] at ha
    rcases ha with rfl | ha | ha
    · rw [hk]
      exact ⟨fun hc => hlt _ (hl.key_mem (hl.mem_root hc)),
        fun hc => hgt _ (hr.key_mem (hr.mem_root hc))⟩
    · exact ihl hl hol ha
    · exact ihr hr hor ha

theorem Shape.entry_of_find (hs : h.Shape p t) (hf : t.find key = some (a, v)) :
    a ∈ h.dom ∧ (h.entry a).key = key ∧ (h.entry a).value = v := by
  induction t generalizing p with
  | leaf => cases hf
  | node b k w l r ihl ihr =>
    obtain ⟨-, hb, hk, hv, hl, hr⟩ := hs
    rw [SearchTree.find] at hf
    split_ifs at hf with h1 h2
    · exact ihl hl hf
    · exact ihr hr hf
    · cases hf
      exact ⟨hb, hk.trans (le_antisymm (not_lt.mp h1) (not_lt.mp h2)), hv⟩

/-- `find` follows the search tree. -/
theorem Shape.findFrom (hs : h.Shape p t) (hn : t.size ≤ n) :
    Map.findFrom h key n p = some ((t.find key).map Prod.fst) := by
  induction t generalizing p n with
  | leaf =>
    cases hs
    cases n <;> rfl
  | node a k v l r ihl ihr =>
    obtain ⟨rfl, ha, hk, -, hl, hr⟩ := hs
    rw [size_node] at hn
    obtain ⟨n, rfl⟩ : ∃ n', n = n' + 1 := ⟨n - 1, by omega⟩
    rw [Map.findFrom, load_of_mem ha, Option.bind_eq_bind, Option.bind_some, hk, SearchTree.find]
    split_ifs
    · exact ihl hl (by omega)
    · exact ihr hr (by omega)
    · rfl

end Entries

end Koerix
