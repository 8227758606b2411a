import Mathlib.Data.List.Nodup
import Mathlib.Logic.Function.Basic

/-! # Doubly linked segments

Nodes in a heap that know their neighbours on both sides. A segment is a run of such nodes
between two neighbours that need not be nodes themselves, so that a list can be cut anywhere
and put together again.
-/

/-- A node at an address, with the addresses of its neighbours. -/
structure DNode (ι α : Type*) where
  item : α
  next : Option ι
  prev : Option ι

namespace DNode

variable {ι α : Type*}

/-- The address of the first node, or of what comes after an empty segment. -/
def headOr (q : Option ι) : List (ι × α) → Option ι
  | [] => q
  | n :: _ => some n.1

/-- The address of the last node, or of what comes before an empty segment. -/
def lastOr (p : Option ι) : List (ι × α) → Option ι
  | [] => p
  | n :: ns => lastOr (some n.1) ns

/-- The nodes `ns` are linked in this order, between `p` and `q`. -/
def Seg (h : ι → Option (DNode ι α)) (p : Option ι) (q : Option ι) : List (ι × α) → Prop
  | [] => True
  | n :: ns => h n.1 = some ⟨n.2, headOr q ns, p⟩ ∧ Seg h (some n.1) q ns

variable {h h' : ι → Option (DNode ι α)} {p q p' q' : Option ι} {n : ι × α} {ns ms : List (ι × α)}

@[simp] theorem headOr_nil : headOr q ([] : List (ι × α)) = q := rfl

@[simp] theorem headOr_cons : headOr q (n :: ns) = some n.1 := rfl

@[simp] theorem lastOr_nil : lastOr p ([] : List (ι × α)) = p := rfl

@[simp] theorem lastOr_cons : lastOr p (n :: ns) = lastOr (some n.1) ns := rfl

@[simp] theorem seg_nil : Seg h p q [] := trivial

theorem headOr_append : headOr q (ns ++ ms) = headOr (headOr q ms) ns := by
  cases ns <;> rfl

theorem lastOr_append : lastOr p (ns ++ ms) = lastOr (lastOr p ns) ms := by
  induction ns generalizing p with
  | nil => rfl
  | cons n ns ih => exact ih

@[simp] theorem lastOr_concat : lastOr p (ns ++ [n]) = some n.1 := by
  rw [lastOr_append]
  rfl

theorem seg_append :
    Seg h p q (ns ++ ms) ↔ Seg h p (headOr q ms) ns ∧ Seg h (lastOr p ns) q ms := by
  induction ns generalizing p with
  | nil => simp
  | cons n ns ih =>
    rw [List.cons_append, Seg, ih, headOr_append, Seg, lastOr_cons, and_assoc]

theorem Seg.congr (hs : Seg h p q ns) (heq : ∀ n ∈ ns, h' n.1 = h n.1) : Seg h' p q ns := by
  induction ns generalizing p with
  | nil => trivial
  | cons n ns ih =>
    refine ⟨(heq n List.mem_cons_self).trans hs.1, ih hs.2 fun m hm => ?_⟩
    exact heq m (List.mem_cons_of_mem n hm)

theorem Seg.lookup (hs : Seg h p q (ns ++ n :: ms)) :
    h n.1 = some ⟨n.2, headOr q ms, lastOr p ns⟩ :=
  (seg_append.mp hs).2.1

variable [DecidableEq ι]

theorem Seg.update_prev (hs : Seg h p q (n :: ns)) (hn : n.1 ∉ ns.map Prod.fst) :
    Seg (Function.update h n.1 (some ⟨n.2, headOr q ns, p'⟩)) p' q (n :: ns) := by
  refine ⟨Function.update_self .., hs.2.congr fun m hm => Function.update_of_ne ?_ _ _⟩
  intro he
  exact hn (he ▸ List.mem_map_of_mem hm)

theorem Seg.update_next (hs : Seg h p q (ns ++ [n])) (hn : n.1 ∉ ns.map Prod.fst) :
    Seg (Function.update h n.1 (some ⟨n.2, q', lastOr p ns⟩)) p q' (ns ++ [n]) := by
  rw [seg_append] at hs ⊢
  refine ⟨hs.1.congr fun m hm => Function.update_of_ne ?_ _ _, Function.update_self .., trivial⟩
  intro he
  exact hn (he ▸ List.mem_map_of_mem hm)

theorem Seg.update_of_notMem (hs : Seg h p q ns) {a : ι} (ha : a ∉ ns.map Prod.fst)
    (x : Option (DNode ι α)) : Seg (Function.update h a x) p q ns := by
  refine hs.congr fun m hm => Function.update_of_ne ?_ _ _
  rintro rfl
  exact ha (List.mem_map_of_mem hm)

end DNode
