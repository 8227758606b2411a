import Koerix.Map.Erase

/-! # Copying a map

The copy constructor of an entry copies its children and does not mention the parent link,
which is null in the zeroed memory that it is given. The copy is a search tree of new entries
with the same keys and values, and what happens to one of the two maps does not show in the
other. But no entry of the copy points to its parent, as all but the root should.
-/

namespace Koerix

open SearchTree

variable {K V : Type}

namespace Map

/-- `MapEntry::copy` of what a pointer points to. `new` takes its addresses from the supply and
returns zeroed memory, so that pointers which the constructor does not set are null. -/
def copyFrom : ℕ → Option ℕ → Entries K V → List ℕ → Option (Option ℕ × Entries K V × List ℕ)
  | _, none, h, supply => some (none, h, supply)
  | 0, some _, _, _ => none
  | _ + 1, some _, _, [] => none
  | n + 1, some a, h, x :: supply => do
    let e ← h.load a
    let h ← h.new x ⟨e.key, e.value, none, none, none⟩
    let (left, h, supply) ← copyFrom n e.left h supply
    let h := h.store x { h.entry x with left := left }
    let (right, h, supply) ← copyFrom n e.right h supply
    let h := h.store x { h.entry x with right := right }
    return (some x, h, supply)

/-- The copy constructor. The map that is copied stays where it is, on the same heap. -/
def copy (m : Map K V) (supply : List ℕ) : Option (Map K V) :=
  (copyFrom m.fuel m.root m.heap supply).map fun (root, heap, _) => ⟨root, heap⟩

/-- `MapEntry::destroyChildren`. -/
def destroyChildren : ℕ → ℕ → Entries K V → Option (Entries K V)
  | 0, _, _ => none
  | n + 1, a, h => do
    let e ← h.load a
    let h ← e.left.elim (some h) fun l => (destroyChildren n l h).map (·.delete l)
    let e ← h.load a
    e.right.elim (some h) fun r => (destroyChildren n r h).map (·.delete r)

/-- The destructor. -/
def destroy (m : Map K V) : Option (Map K V) :=
  m.root.elim (some m) fun a =>
    (destroyChildren m.fuel a m.heap).map fun h => { m with heap := h.delete a }

variable {h h' : Entries K V} {p p' : Option ℕ} {t : SearchTree ℕ K V} {n : ℕ}
  {supply rest : List ℕ}

/-- New entries have been made for the nodes of a tree, with null for a parent. -/
structure Copied (h h' : Entries K V) (t : SearchTree ℕ K V) : Prop where
  nodup : t.ids.Nodup
  fresh : ∀ b ∈ t.ids, b ∉ h.dom
  dom : ∀ b, b ∈ h'.dom ↔ b ∈ h.dom ∨ b ∈ t.ids
  entry : ∀ b, b ∉ t.ids → h'.entry b = h.entry b
  parent : ∀ b ∈ t.ids, (h'.entry b).parent = none

theorem copyFrom_some_eq {a x : ℕ} (ha : a ∈ h.dom)
    (hc : copyFrom (n + 1) (some a) h (x :: supply) = some (p', h', rest)) :
    x ∉ h.dom ∧ ∃ left h₂ s₂ right h₄,
      copyFrom n (h.entry a).left
        (h.grow x ⟨(h.entry a).key, (h.entry a).value, none, none, none⟩) supply =
          some (left, h₂, s₂) ∧
      copyFrom n (h.entry a).right (h₂.store x { h₂.entry x with left := left }) s₂ =
        some (right, h₄, rest) ∧
      p' = some x ∧ h' = h₄.store x { h₄.entry x with right := right } := by
  simp only [copyFrom, Entries.load_of_mem ha, Option.bind_eq_bind, Option.bind_some,
    Option.bind_eq_some_iff, Prod.exists, Entries.new, Option.pure_def, Option.some.injEq,
    Prod.mk.injEq] at hc
  obtain ⟨h₁, hnew, left, h₂, s₂, hl, right, h₄, s₄, hr, rfl, rfl, rfl⟩ := hc
  split_ifs at hnew with hx
  cases hnew
  exact ⟨hx, left, h₂, s₂, right, h₄, hl, hr, rfl, rfl⟩

theorem shape_grow {x : ℕ} {e : MapEntry K V} (hs : h.Shape p t) (hx : x ∉ h.dom) :
    (h.grow x e).Shape p t := by
  refine hs.congr (fun b _ hb => Entries.mem_grow.mpr (Or.inr hb)) fun b hb => ?_
  refine Entries.entry_grow_of_ne ?_
  rintro rfl
  exact hx (hs.mem_dom hb)

theorem Copied.shape_store {x : ℕ} {e : MapEntry K V} {h₂ : Entries K V}
    {tl : SearchTree ℕ K V} (hcop : Copied (h.grow x e) h₂ tl) (e' : MapEntry K V)
    (hs : h.Shape p t) (hx : x ∉ h.dom) : (h₂.store x e').Shape p t := by
  have hgrow := shape_grow (e := e) hs hx
  refine hgrow.congr (fun b _ hb => (hcop.dom b).mpr (Or.inl hb)) fun b hb => ?_
  have hne : b ≠ x := by
    rintro rfl
    exact hx (hs.mem_dom hb)
  rw [Entries.entry_store_of_ne hne, hcop.entry b fun hm => hcop.fresh b hm (hgrow.mem_dom hb)]

/-- An entry is copied by copying its children. -/
theorem Copied.node {x : ℕ} {k : K} {v : V} {left right : Option ℕ} {h₂ h₄ : Entries K V}
    {tl tr : SearchTree ℕ K V} (hx : x ∉ h.dom)
    (hl : Copied (h.grow x ⟨k, v, none, none, none⟩) h₂ tl)
    (hr : Copied (h₂.store x { h₂.entry x with left := left }) h₄ tr)
    (hsl : h₂.Shape left tl) (hsr : h₄.Shape right tr) :
    Copied h (h₄.store x { h₄.entry x with right := right }) (.node x k v tl tr) ∧
      (h₄.store x { h₄.entry x with right := right }).Shape (some x) (.node x k v tl tr) := by
  have hxl : x ∉ tl.ids := fun hm => hl.fresh x hm (Entries.mem_grow.mpr (Or.inl rfl))
  have hx₂ : x ∈ h₂.dom := (hl.dom x).mpr (Or.inl (Entries.mem_grow.mpr (Or.inl rfl)))
  have hxr : x ∉ tr.ids := fun hm => hr.fresh x hm hx₂
  have hlr : ∀ b ∈ tl.ids, b ∉ tr.ids := fun b hb hm => hr.fresh b hm ((hl.dom b).mpr (Or.inr hb))
  have hentry : (h₄.store x { h₄.entry x with right := right }).entry x =
      ⟨k, v, none, left, right⟩ := by
    rw [Entries.entry_store_self, hr.entry x hxr, Entries.entry_store_self, hl.entry x hxl]
    rw [Entries.entry_grow_self]
  have hkeepl : ∀ b ∈ tl.ids,
      (h₄.store x { h₄.entry x with right := right }).entry b = h₂.entry b := by
    intro b hb
    have hne : b ≠ x := fun he => hxl (he ▸ hb)
    rw [Entries.entry_store_of_ne hne, hr.entry b (hlr b hb), Entries.entry_store_of_ne hne]
  have hkeepr : ∀ b ∈ tr.ids,
      (h₄.store x { h₄.entry x with right := right }).entry b = h₄.entry b :=
    fun b hb => Entries.entry_store_of_ne fun he => hxr (he ▸ hb)
  have hdom : ∀ b, b ∈ h₄.dom ↔ b ∈ h.dom ∨ b ∈ (SearchTree.node x k v tl tr).ids := by
    intro b
    have h₃ : b ∈ h₄.dom ↔ b ∈ h₂.dom ∨ b ∈ tr.ids := hr.dom b
    rw [h₃, hl.dom b, Entries.mem_grow, ids_node, List.mem_cons, List.mem_append]
    tauto
  refine ⟨⟨?_, ?_, hdom, ?_, ?_⟩, rfl, (hdom x).mpr (Or.inr (by simp)), ?_, ?_, ?_, ?_⟩
  · rw [ids_node, List.nodup_cons, List.mem_append, List.nodup_append]
    exact ⟨by tauto, hl.nodup, hr.nodup, fun a ha b hb hab => hlr a ha (hab ▸ hb)⟩
  · intro b hb
    rw [ids_node, List.mem_cons, List.mem_append] at hb
    rcases hb with rfl | hb | hb
    · exact hx
    · exact fun hm => hl.fresh b hb (Entries.mem_grow.mpr (Or.inr hm))
    · exact fun hm => hr.fresh b hb ((hl.dom b).mpr (Or.inl (Entries.mem_grow.mpr (Or.inr hm))))
  · intro b hb
    rw [ids_node, List.mem_cons, List.mem_append, not_or, not_or] at hb
    rw [Entries.entry_store_of_ne hb.1, hr.entry b hb.2.2, Entries.entry_store_of_ne hb.1,
      hl.entry b hb.2.1, Entries.entry_grow_of_ne hb.1]
  · intro b hb
    rw [ids_node, List.mem_cons, List.mem_append] at hb
    rcases hb with rfl | hb | hb
    · rw [hentry]
    · rw [hkeepl b hb]
      exact hl.parent b hb
    · rw [hkeepr b hb]
      exact hr.parent b hb
  all_goals rw [hentry]
  · exact hsl.congr (fun b _ hb => (hr.dom b).mpr (Or.inl hb)) hkeepl
  · exact hsr.congr (fun _ _ => id) hkeepr

/-- What `copy` leaves behind. -/
theorem copyFrom_spec (hs : h.Shape p t) (hc : copyFrom n p h supply = some (p', h', rest)) :
    ∃ t', Copied h h' t' ∧ h'.Shape p' t' ∧ t'.strip = t.strip ∧ supply = t'.ids ++ rest := by
  induction t generalizing p p' n h h' supply rest with
  | leaf =>
    cases hs
    have hnull : copyFrom n none h supply = some (none, h, supply) := by cases n <;> rfl
    rw [hnull] at hc
    cases hc
    exact ⟨.leaf, ⟨List.nodup_nil, by simp, by simp, by simp, by simp⟩, rfl, rfl, rfl⟩
  | node a k v l r ihl ihr =>
    obtain ⟨rfl, ha, rfl, rfl, hl, hr⟩ := hs
    cases n with
    | zero => cases hc
    | succ n =>
      cases supply with
      | nil => cases hc
      | cons x supply =>
        obtain ⟨hx, left, h₂, s₂, right, h₄, hcl, hcr, rfl, rfl⟩ := copyFrom_some_eq ha hc
        obtain ⟨tl, hcopl, hsl, hstl, rfl⟩ := ihl (shape_grow hl hx) hcl
        obtain ⟨tr, hcopr, hsr, hstr, rfl⟩ := ihr (hcopl.shape_store _ hr hx) hcr
        obtain ⟨hcop, hshape⟩ := Copied.node hx hcopl hcopr hsl hsr
        exact ⟨_, hcop, hshape, by rw [strip, strip, hstl, hstr], by simp⟩

/-- `copy` returns if there are enough new addresses. -/
theorem exists_copyFrom (hs : h.Shape p t) (hn : t.size ≤ n) (hnodup : supply.Nodup)
    (hfresh : ∀ x ∈ supply, x ∉ h.dom) (hlen : t.size ≤ supply.length) :
    ∃ p' h' rest, copyFrom n p h supply = some (p', h', rest) := by
  induction t generalizing p n h supply with
  | leaf =>
    cases hs
    exact ⟨none, h, supply, by cases n <;> rfl⟩
  | node a k v l r ihl ihr =>
    obtain ⟨rfl, ha, rfl, rfl, hl, hr⟩ := hs
    rw [size_node] at hn hlen
    obtain ⟨n, rfl⟩ : ∃ n', n = n' + 1 := ⟨n - 1, by omega⟩
    cases supply with
    | nil =>
      rw [List.length_nil] at hlen
      omega
    | cons x supply =>
      rw [List.nodup_cons] at hnodup
      rw [List.length_cons] at hlen
      have hx : x ∉ h.dom := hfresh x List.mem_cons_self
      have hgrow : ∀ y ∈ supply, ∀ e, y ∉ (h.grow x e).dom := by
        intro y hy e hm
        rcases Entries.mem_grow.mp hm with rfl | hm
        · exact hnodup.1 hy
        · exact hfresh y (List.mem_cons_of_mem x hy) hm
      obtain ⟨left, h₂, s₂, hcl⟩ := ihl (n := n) (shape_grow hl hx) (by omega) hnodup.2
        (fun y hy => hgrow y hy ⟨(h.entry a).key, (h.entry a).value, none, none, none⟩) (by omega)
      obtain ⟨tl, hcopl, -, hstl, rfl⟩ := copyFrom_spec (shape_grow hl hx) hcl
      have hsize : tl.ids.length = l.size := by
        rw [← size_strip l, ← hstl, size_strip]
        rfl
      rw [List.length_append] at hlen
      rw [List.nodup_append] at hnodup
      have hfresh₂ : ∀ y ∈ s₂, y ∉ h₂.dom := by
        intro y hy hm
        rcases (hcopl.dom y).mp hm with hm | hm
        · exact hgrow y (List.mem_append_right _ hy) _ hm
        · exact hnodup.2.2.2 y hm y hy rfl
      obtain ⟨right, h₄, rest, hcr⟩ := ihr (n := n)
        (hcopl.shape_store { h₂.entry x with left := left } hr hx) (by omega) hnodup.2.2.1 hfresh₂
        (by omega)
      exact ⟨some x, h₄.store x { h₄.entry x with right := right }, rest, by
        simp [copyFrom, Entries.load_of_mem ha, Entries.new, hx, hcl, hcr]⟩

/-- The destructor takes entries of the tree off the heap, and changes nothing else. -/
theorem destroyChildren_frame {S : Set ℕ} {a : ℕ} (ha : a ∈ S)
    (hclosed : ∀ b ∈ S, ∀ c, (h.entry b).left = some c ∨ (h.entry b).right = some c → c ∈ S)
    (hd : destroyChildren n a h = some h') :
    h'.entry = h.entry ∧ ∀ b, b ∉ S → (b ∈ h'.dom ↔ b ∈ h.dom) := by
  induction n generalizing a h h' with
  | zero => cases hd
  | succ n ih =>
    -- one child, with its own children
    have hchild : ∀ (h h' : Entries K V) (p : Option ℕ),
        (∀ b ∈ S, ∀ c, (h.entry b).left = some c ∨ (h.entry b).right = some c → c ∈ S) →
        (∀ c, p = some c → c ∈ S) →
        p.elim (some h) (fun l => (destroyChildren n l h).map (·.delete l)) = some h' →
        h'.entry = h.entry ∧ ∀ b, b ∉ S → (b ∈ h'.dom ↔ b ∈ h.dom) := by
      intro h h' p hclosed hp hd
      cases p with
      | none =>
        cases hd
        exact ⟨rfl, fun _ _ => Iff.rfl⟩
      | some l =>
        obtain ⟨h₁, hh₁, rfl⟩ := Option.map_eq_some_iff.mp hd
        have hl := hp l rfl
        obtain ⟨hentry, hdom⟩ := ih hl hclosed hh₁
        refine ⟨hentry, fun b hb => ?_⟩
        rw [Entries.delete, Finset.mem_erase, hdom b hb]
        exact and_iff_right fun he => hb (he ▸ hl)
    simp only [destroyChildren, Option.bind_eq_bind, Option.bind_eq_some_iff,
      Entries.load_eq_some_iff] at hd
    obtain ⟨_, ⟨-, rfl⟩, h₁, hl, _, ⟨-, rfl⟩, hr⟩ := hd
    obtain ⟨he₁, hd₁⟩ := hchild h h₁ _ hclosed (fun c hc => hclosed a ha c (Or.inl hc)) hl
    obtain ⟨he₂, hd₂⟩ := hchild h₁ h' _ (by rwa [he₁])
      (fun c hc => hclosed a ha c (Or.inr (he₁ ▸ hc))) hr
    exact ⟨he₂.trans he₁, fun b hb => (hd₂ b hb).trans (hd₁ b hb)⟩

variable [LinearOrder K] {m m' c : Map K V}

/-- What can happen to a map later on. -/
inductive Operation (K V : Type)
  | call (c : Call K V)
  | destroy

def operate (m : Map K V) : Operation K V → Option (Map K V)
  | .call c => m.step c
  | .destroy => m.destroy

/-- An operation touches only entries of the map itself, and new ones. -/
theorem Represents.operate_load (ht : m.Represents t) (hpar : m.heap.ParentsIn t)
    {o : Operation K V} (ho : m.operate o = some m') {b : ℕ} (hb : b ∈ m.heap.dom)
    (hbt : b ∉ t.ids) : m'.heap.load b = m.heap.load b := by
  cases o with
  | call c =>
    cases c with
    | index key value a =>
      obtain ⟨t', -, -, -, -, -, hids, hload⟩ := ht.index ho
      refine hload b fun hm => ?_
      rcases hids b hm with hm | ⟨rfl, hfresh⟩
      · exact hbt hm
      · exact hfresh hb
    | erase key =>
      simp only [operate, step, erase, ht.find_eq, Option.bind_eq_bind, Option.bind_some] at ho
      cases hf : t.find key with
      | none =>
        simp only [hf, Option.map_none, Option.map_some, Option.some.injEq] at ho
        rw [ho]
      | some p =>
        obtain ⟨a, v⟩ := p
        have ha := mem_ids_of_find hf
        simp only [hf, Option.map_some, Option.map_eq_some_iff, Option.bind_eq_some_iff,
          Option.pure_def, Option.some.injEq] at ho
        obtain ⟨_, ⟨m₁, hm₁, rfl⟩, rfl⟩ := ho
        have hclosed : ∀ b ∈ {b | b ∈ t.ids}, ∀ c, (m.heap.entry b).left = some c ∨
            (m.heap.entry b).right = some c → c ∈ {b | b ∈ t.ids} :=
          fun b hb c hc => ht.shape.mem_child hb hc
        obtain ⟨-, parent, left, right, c, X, Y, q, -, -, hright, -, ⟨x, hx, hX⟩, ⟨y, hy, hY⟩,
          rfl⟩ := eraseEntry_eq_some ha hclosed (hpar a ha) hm₁
        have hholder : ∀ {X : Link} {x}, x ∈ t.ids → X = .left x ∨ X = .right x →
            X.holder ≠ some b := by
          rintro X x hx (rfl | rfl) he
          · exact hbt (Option.some.inj he ▸ hx)
          · exact hbt (Option.some.inj he ▸ hx)
        have hr := ht.shape.mem_child ha (Or.inr hright)
        have hne : b ≠ a := fun he => hbt (he ▸ ha)
        have hentry : (((m.put X (some c)).put Y (some right)).put (.parent right) q).heap.entry b =
            m.heap.entry b := by
          have hright : (Link.parent right).holder ≠ some b :=
            fun he => hbt (Option.some.inj he ▸ hr)
          rw [entry_put_of_ne hright, entry_put_of_ne (hholder hy hY),
            entry_put_of_ne (hholder hx hX)]
        rw [Entries.load, Entries.load, Entries.delete, hentry]
        simp [hne]
  | destroy =>
    simp only [operate, destroy] at ho
    cases hroot : m.root with
    | none =>
      simp only [hroot, Option.elim_none, Option.some.injEq] at ho
      rw [ho]
    | some a =>
      simp only [hroot, Option.elim_some, Option.map_eq_some_iff] at ho
      obtain ⟨h', hd, rfl⟩ := ho
      have ha := ht.shape.mem_root hroot
      obtain ⟨hentry, hdom⟩ := destroyChildren_frame (S := {b | b ∈ t.ids}) ha
        (fun b hb c hc => ht.shape.mem_child hb hc) hd
      have hne : b ≠ a := fun he => hbt (he ▸ ha)
      rw [Entries.load, Entries.load, Entries.delete, hentry]
      simp [hne, hdom b hbt]

theorem Represents.congr (ht : m.Represents t) (hroot : m'.root = m.root)
    (hload : ∀ b ∈ t.ids, m'.heap.load b = m.heap.load b) : m'.Represents t := by
  have hsame : ∀ b ∈ t.ids, b ∈ m'.heap.dom ∧ m'.heap.entry b = m.heap.entry b := by
    intro b hb
    have := hload b hb
    rw [Entries.load_of_mem (ht.shape.mem_dom hb)] at this
    exact Entries.load_eq_some_iff.mp this
  exact ⟨hroot ▸ ht.shape.congr (fun b hb _ => (hsame b hb).1) fun b hb => (hsame b hb).2,
    ht.nodup, ht.ordered⟩

/-- Two maps on one heap. -/
structure Pair (K V : Type) where
  root : Bool → Option ℕ
  heap : Entries K V

namespace Pair

def pick (s : Pair K V) (i : Bool) : Map K V := ⟨s.root i, s.heap⟩

/-- An operation on one of the maps. -/
def step (s : Pair K V) (o : Bool × Call K V) : Option (Pair K V) :=
  ((s.pick o.1).step o.2).map fun m => ⟨Function.update s.root o.1 m.root, m.heap⟩

/-- No `erase` is given a key that is there. -/
def Misses (s : Pair K V) (o : Bool × Call K V) : Prop := (s.pick o.1).Misses o.2

/-- From now on, no operation on one map shows in the other. An `erase` that hits breaks its map
on its own account, so it can only be the last operation. -/
def Independent (s : Pair K V) : Prop :=
  ∀ s', Run.Reachable step Misses s s' → ∀ i o m', (s'.pick i).operate o = some m' →
    ∀ k, (⟨s'.root !i, m'.heap⟩ : Map K V).lookup k = (s'.pick !i).lookup k

/-- The maps are search trees without common entries, and entries point back into their own. -/
structure Apart (s : Pair K V) (t : Bool → SearchTree ℕ K V) : Prop where
  tree : ∀ i, (s.pick i).Represents (t i)
  parents : ∀ i, s.heap.ParentsIn (t i)
  disjoint : ∀ i, ∀ b ∈ (t i).ids, b ∉ (t !i).ids

variable {s s' : Pair K V} {trees : Bool → SearchTree ℕ K V}

theorem Apart.other_load (h : s.Apart trees) {i : Bool} {o : Operation K V} {m' : Map K V}
    (ho : (s.pick i).operate o = some m') {b : ℕ} (hb : b ∈ (trees !i).ids) :
    m'.heap.load b = s.heap.load b := by
  refine (h.tree i).operate_load (h.parents i) ho ((h.tree !i).shape.mem_dom hb) fun hi => ?_
  exact h.disjoint i b hi hb

theorem Apart.step {o : Bool × Call K V} (h : s.Apart trees) (hok : s.Misses o)
    (hs : s.step o = some s') : ∃ trees', s'.Apart trees' := by
  obtain ⟨i, c⟩ := o
  obtain ⟨m, hm, rfl⟩ := Option.map_eq_some_iff.mp hs
  cases c with
  | index key value a =>
    obtain ⟨t', ht', -, hpar', -, -, hids, -⟩ := (h.tree i).index hm
    have hother : ∀ b ∈ (trees !i).ids, m.heap.load b = s.heap.load b :=
      fun b hb => h.other_load (o := .call (.index key value a)) hm hb
    have hapart : ∀ b ∈ t'.ids, b ∉ (trees !i).ids := by
      intro b hb hb'
      rcases hids b hb with hb | ⟨rfl, hfresh⟩
      · exact h.disjoint i b hb hb'
      · exact hfresh ((h.tree !i).shape.mem_dom hb')
    refine ⟨Function.update trees i t', fun j => ?_, fun j => ?_, fun j => ?_⟩
    · rcases eq_or_ne j i with rfl | hne
      · simpa [pick] using ht'
      · obtain rfl := Bool.eq_not_of_ne hne
        rw [Function.update_of_ne hne]
        exact (h.tree !i).congr (Function.update_of_ne hne _ _) hother
    · rcases eq_or_ne j i with rfl | hne
      · rw [Function.update_self]
        exact hpar' (h.parents j)
      · obtain rfl := Bool.eq_not_of_ne hne
        rw [Function.update_of_ne hne]
        intro b hb d hd
        have hdom : b ∈ s.heap.dom := (h.tree !i).shape.mem_dom hb
        have hentry : m.heap.entry b = s.heap.entry b :=
          (Entries.load_eq_some_iff.mp ((hother b hb).trans (Entries.load_of_mem hdom))).2
        exact h.parents (!i) b hb d ((congrArg MapEntry.parent hentry).symm.trans hd)
    · rcases eq_or_ne j i with rfl | hne
      · rw [Function.update_self, Function.update_of_ne (by simp)]
        exact hapart
      · obtain rfl := Bool.eq_not_of_ne hne
        rw [Function.update_of_ne hne, Bool.not_not, Function.update_self]
        exact fun b hb hb' => hapart b hb' hb
  | erase key =>
    have hmiss : (s.pick i).find key = some none := hok
    simp only [Map.step, Map.erase, hmiss, Option.bind_eq_bind, Option.bind_some, Option.map_some,
      Option.some.injEq] at hm
    subst hm
    refine ⟨trees, ?_⟩
    rw [show (s.pick i).root = s.root i from rfl, Function.update_eq_self]
    exact h

theorem Apart.independent (h : s.Apart trees) : s.Independent := by
  intro s' hr i o m' ho k
  obtain ⟨t, ht⟩ := hr.invariant (P := fun s => ∃ t, Apart s t) ⟨trees, h⟩
    fun s o s' ⟨t, ht⟩ hok hs => ht.step hok hs
  have hother : (⟨s'.root !i, m'.heap⟩ : Map K V).Represents (t !i) :=
    (ht.tree !i).congr rfl fun b hb => ht.other_load ho hb
  rw [hother.lookup_eq, (ht.tree !i).lookup_eq]

end Pair

/-- The entries that a map gets to. -/
inductive Reaches (m : Map K V) : ℕ → Prop
  | root {a : ℕ} : m.root = some a → Reaches m a
  | child {a b : ℕ} : Reaches m a →
      (m.heap.entry a).left = some b ∨ (m.heap.entry a).right = some b → Reaches m b

theorem Represents.reaches_iff (ht : m.Represents t) {a : ℕ} : m.Reaches a ↔ a ∈ t.ids := by
  constructor
  · intro h
    induction h with
    | root h => exact ht.shape.mem_root h
    | child _ hb ih => exact ht.shape.mem_child ih hb
  · exact ht.shape.subset (S := {a | m.Reaches a}) (fun a => .root) (fun a ha c hc =>
      .child ha hc) a

/-- What one expects of a copy `c` of `m`, which is now on the heap of `c`. -/
structure CopyOk (m c : Map K V) : Prop where
  wellFormed : c.WellFormed
  lookup : ∀ k, c.lookup k = m.lookup k ∧ (⟨m.root, c.heap⟩ : Map K V).lookup k = m.lookup k
  apart : ∀ a, c.Reaches a → ¬ (⟨m.root, c.heap⟩ : Map K V).Reaches a
  independent : Pair.Independent ⟨fun i => if i then c.root else m.root, c.heap⟩

/-- Calls of `operator[]` only. -/
def Indexes (_ : Map K V) : Call K V → Prop
  | .index _ _ _ => True
  | .erase _ => False

theorem sound_of_indexes (hr : Run.Reachable step Indexes (empty h) m) : m.Sound := by
  refine hr.invariant (sound_empty h) fun m c m' hm hok hs => hm.step ?_ hs
  cases c with
  | index key value a => trivial
  | erase key => exact hok.elim

/-- What is always true of a copy. -/
theorem Represents.copy (ht : m.Represents t) (hp : m.heap.Parented none t)
    (hc : m.copy supply = some c) : ∃ t', c.Represents t' ∧ t'.size = t.size ∧
      (∀ b ∈ t'.ids, (c.heap.entry b).parent = none) ∧
      (∀ k, c.lookup k = m.lookup k ∧ (⟨m.root, c.heap⟩ : Map K V).lookup k = m.lookup k) ∧
      (∀ a, c.Reaches a → ¬ (⟨m.root, c.heap⟩ : Map K V).Reaches a) ∧
      Pair.Independent ⟨fun i => if i then c.root else m.root, c.heap⟩ := by
  obtain ⟨⟨root, heap, rest⟩, hcopy, rfl⟩ := Option.map_eq_some_iff.mp hc
  obtain ⟨t', hcop, hs', hstrip, -⟩ := copyFrom_spec ht.shape hcopy
  have hold : ∀ b ∈ t.ids, b ∉ t'.ids := fun b hb hb' => hcop.fresh b hb' (ht.shape.mem_dom hb)
  have hentry : ∀ b ∈ t.ids, heap.entry b = m.heap.entry b := fun b hb => hcop.entry b (hold b hb)
  have hnew : (⟨root, heap⟩ : Map K V).Represents t' :=
    ⟨hs', hcop.nodup, (ordered_strip t').mp (hstrip ▸ (ordered_strip t).mpr ht.ordered)⟩
  have horig : (⟨m.root, heap⟩ : Map K V).Represents t :=
    ⟨ht.shape.congr (fun b _ hb => (hcop.dom b).mpr (Or.inl hb)) hentry, ht.nodup, ht.ordered⟩
  have hpar : ∀ b ∈ t'.ids, (heap.entry b).parent = none := hcop.parent
  refine ⟨t', hnew, ?_, hpar, fun k => ?_, fun a ha ha' => ?_, ?_⟩
  · rw [← size_strip t', hstrip, size_strip]
  · rw [hnew.lookup_eq, horig.lookup_eq, ht.lookup_eq, ← find_strip t', hstrip, find_strip]
    exact ⟨rfl, rfl⟩
  · exact hold a (horig.reaches_iff.mp ha') (hnew.reaches_iff.mp ha)
  · have hpair : Pair.Apart ⟨fun i => if i then root else m.root, heap⟩
        (fun i => if i then t' else t) := by
      refine ⟨?_, ?_, ?_⟩
      · rintro (_ | _)
        · exact horig
        · exact hnew
      · rintro (_ | _)
        · intro a ha b hb
          exact hp.parentsIn a ha b (hentry a ha ▸ hb)
        · intro a ha b hb
          cases (hpar a ha).symm.trans hb
      · rintro (_ | _)
        · exact hold
        · exact fun b hb hb' => hold b hb' hb
    exact hpair.independent

/-- Without parent links, only a tree of one entry is well formed. -/
theorem Represents.wellFormed_iff (ht : c.Represents t)
    (hpar : ∀ b ∈ t.ids, (c.heap.entry b).parent = none) : c.WellFormed ↔ t.size ≤ 1 := by
  constructor
  · rintro ⟨t₀, ht₀, hlinked⟩
    have hids : ∀ a, a ∈ t.ids ↔ a ∈ t₀.ids := fun a => ht.reaches_iff.symm.trans ht₀.reaches_iff
    have hroot : ∀ a ∈ t.ids, c.root = some a := by
      intro a ha
      by_contra hne
      obtain ⟨b, -, hb⟩ := hlinked.parent_mem ht₀.shape ((hids a).mp ha) hne
      cases (hpar a ha).symm.trans hb
    rw [size_le_one_iff ht.nodup]
    intro a ha b hb
    exact Option.some.inj ((hroot a ha).symm.trans (hroot b hb))
  · intro hle
    refine ⟨t, ht, ?_⟩
    cases t with
    | leaf => trivial
    | node a k v l r =>
      rw [size_node] at hle
      cases l with
      | node => simp at hle
      | leaf =>
        cases r with
        | node => simp at hle
        | leaf => exact ⟨trivial, trivial⟩

theorem Sound.copyOk_iff_reaches (h : m.Sound) (hc : m.copy supply = some c) :
    m.CopyOk c ↔ ∀ a b, m.Reaches a → m.Reaches b → a = b := by
  obtain ⟨t, ht, hp⟩ := h
  obtain ⟨t', hnew, hsz, hpar, hlookup, hapart, hind⟩ := ht.copy hp hc
  have hone : (∀ a b, m.Reaches a → m.Reaches b → a = b) ↔ t.size ≤ 1 := by
    rw [size_le_one_iff ht.nodup]
    simp only [ht.reaches_iff]
    exact ⟨fun h a ha b hb => h a b ha hb, fun h a b ha hb => h a ha b hb⟩
  rw [hone, ← hsz, ← hnew.wellFormed_iff hpar]
  exact ⟨fun hok => hok.wellFormed, fun hw => ⟨hw, hlookup, hapart, hind⟩⟩

/-- A copy of a map that `operator[]` has built is what one expects exactly if the map has at
most one entry. It is there as soon as there are enough addresses for it. -/
theorem copyOk_iff (h : Entries K V) (m : Map K V)
    (hr : Run.Reachable step Indexes (empty h) m) :
    (∀ supply : List ℕ, supply.Nodup → (∀ x ∈ supply, x ∉ m.heap.dom) →
      m.heap.dom.card ≤ supply.length → ∃ c, m.copy supply = some c) ∧
    ∀ supply c, m.copy supply = some c →
      (m.CopyOk c ↔ ∀ a b, m.Reaches a → m.Reaches b → a = b) := by
  have hsound := sound_of_indexes hr
  refine ⟨fun supply hnodup hfresh hlen => ?_, fun supply c hc => hsound.copyOk_iff_reaches hc⟩
  obtain ⟨t, ht, -⟩ := hsound
  have hsize := ht.shape.size_le ht.nodup
  obtain ⟨p, h', rest, hcopy⟩ := exists_copyFrom (n := m.fuel) ht.shape hsize hnodup hfresh
    (hsize.trans hlen)
  exact ⟨⟨p, h'⟩, by rw [copy, hcopy]; rfl⟩

instance (m : Map K V) : ∀ c, Decidable (m.Indexes c)
  | .index _ _ _ => isTrue trivial
  | .erase _ => isFalse id

/-- A map with the key 1. -/
def single : Map ℕ ℕ := ((empty noEntries).step (.index 1 7 0)).get (by decide +kernel)

theorem copyOk_iff_single : ∃ c, single.copy [1] = some c ∧ single.CopyOk c := by
  have hr : Run.Reachable step Indexes (empty noEntries) single :=
    .step .init (i := .index 1 7 0) trivial (Option.some_get _).symm
  obtain ⟨hexists, hiff⟩ := copyOk_iff noEntries single hr
  obtain ⟨c, hc⟩ := hexists [1] (by decide) (by decide +kernel) (by decide +kernel)
  refine ⟨c, hc, (hiff [1] c hc).mpr ?_⟩
  have hroot : single.root = some 0 := by decide +kernel
  have hleaf : (single.heap.entry 0).left = none ∧ (single.heap.entry 0).right = none := by
    decide +kernel
  have hzero : ∀ a, single.Reaches a → a = 0 := by
    intro a ha
    induction ha with
    | root ha => exact (Option.some.inj (hroot.symm.trans ha)).symm
    | child _ hb ih =>
      subst ih
      rw [hleaf.1, hleaf.2] at hb
      simp at hb
  intro a b ha hb
  rw [hzero a ha, hzero b hb]

/-- A map with the keys 1 and 2. -/
def two : Map ℕ ℕ := (single.step (.index 2 8 1)).get (by decide +kernel)

/-- In a copy of a map with two entries, the second one does not know its parent. -/
theorem not_copyOk_two : two.root = some 0 ∧ (two.heap.entry 0).right = some 1 ∧
    ∃ c, two.copy [2, 3] = some c ∧ ¬ two.CopyOk c := by
  have hroot : two.root = some 0 := by decide +kernel
  have hright : (two.heap.entry 0).right = some 1 := by decide +kernel
  obtain ⟨c, hc⟩ := Option.isSome_iff_exists.mp
    (show (two.copy [2, 3]).isSome from by decide +kernel)
  have hr : Run.Reachable step Indexes (empty noEntries) two :=
    .step (.step .init (i := .index 1 7 0) trivial (Option.some_get _).symm)
      (i := .index 2 8 1) trivial (Option.some_get _).symm
  refine ⟨hroot, hright, c, hc, fun hok => ?_⟩
  have h01 := ((sound_of_indexes hr).copyOk_iff_reaches hc).mp hok 0 1 (.root hroot)
    (.child (.root hroot) (Or.inr hright))
  cases h01

end Map

end Koerix
