import Mathlib.Data.List.Induction
import Mathlib.Data.List.Rotate
import Koerix.Lib.Run
import Koerix.List.Basic

/-! # Linked lists refine sequences

What a list is for: a sequence of items, each of which is known by its address. Every run of
operations that makes sense on the sequence goes through on the pointers, returns the same, and
leaves a list that shows the sequence in both directions.
-/

namespace Koerix

/-- The operations on a list. An item is removed by its address. -/
inductive ListOp (α : Type)
  | pushBack (x : α) (a : ℕ)
  | removeIt (a : ℕ)
  | remove (a : ℕ)
  | rotate
  | popFront
  | clear

/-- The items of a list in order, with their addresses. -/
abbrev Items (α : Type) := List (ℕ × α)

/-- The operations on the sequence; undefined for the memory of an item that is in the list, for
an item that is not, and for the first item of an empty list. -/
def Items.step {α : Type} (ns : Items α) : ListOp α → Option (Items α × Option α)
  | .pushBack x a => if a ∈ ns.map Prod.fst then none else some (ns ++ [(a, x)], none)
  | .removeIt a | .remove a =>
    if a ∈ ns.map Prod.fst then some (ns.eraseP (·.1 = a), none) else none
  | .rotate => some (ns.rotate 1, none)
  | .popFront => ns.head?.map fun n => (ns.tail, some n.2)
  | .clear => some ([], none)

namespace LinkedList

variable {α : Type}

/-- `List::push_back` with memory that the caller owns; the constructor overwrites it. -/
def pushBackMem (l : LinkedList α) (x : α) (a : ℕ) : Option (LinkedList α) :=
  (l.store a none).pushBack x a

/-- `List::pop_front`. -/
def popFront (l : LinkedList α) : Option (LinkedList α × α) := do
  let x ← l.front
  let l ← l.remove l.first
  return (l, x)

/-- The loop of `List::clear`. -/
def clearLoop : ℕ → LinkedList α → Option (LinkedList α)
  | fuel, l =>
    if 0 < l.size then
      match fuel with
      | 0 => none
      | fuel + 1 => do clearLoop fuel (← l.remove l.first)
    else some l

/-- `List::clear`. -/
def clear (l : LinkedList α) : Option (LinkedList α) := clearLoop l.size l

def step (l : LinkedList α) : ListOp α → Option (LinkedList α × Option α)
  | .pushBack x a => (l.pushBackMem x a).map (·, none)
  | .removeIt a => (l.removeIt (some a)).map (·, none)
  | .remove a => (l.remove (some a)).map (·, none)
  | .rotate => l.rotate.map (·, none)
  | .popFront => l.popFront.map fun (l, x) => (l, some x)
  | .clear => l.clear.map (·, none)

/-- The items that are reached by `next`, if there are no more than so many. -/
def forward (l : LinkedList α) : ℕ → Option ℕ → Option (Items α)
  | _, none => some []
  | 0, some _ => none
  | fuel + 1, some a => do
    let e ← l.heap a
    let ns ← forward l fuel e.next
    return (a, e.item) :: ns

/-- The items that are reached by `prev`. -/
def backward (l : LinkedList α) : ℕ → Option ℕ → Option (Items α)
  | _, none => some []
  | 0, some _ => none
  | fuel + 1, some a => do
    let e ← l.heap a
    let ns ← backward l fuel e.prev
    return (a, e.item) :: ns

open DNode

variable {l l' : LinkedList α} {ns ms : Items α} {n : ℕ × α} {a : ℕ} {p : Option ℕ} {x : α}

theorem forward_of_seg {fuel : ℕ} (h : Seg l.heap p none ns) (hf : ns.length ≤ fuel) :
    l.forward fuel (headOr none ns) = some ns := by
  induction ns generalizing p fuel with
  | nil => cases fuel <;> rfl
  | cons n ns ih =>
    obtain ⟨fuel, rfl⟩ : ∃ k, fuel = k + 1 := ⟨fuel - 1, by simp at hf; omega⟩
    have hrest := ih h.2 (by simpa using hf)
    rw [headOr_cons, forward, h.1]
    simp only [Option.bind_eq_bind, Option.bind_some, hrest, Option.pure_def]

theorem backward_of_seg {q : Option ℕ} {fuel : ℕ} (h : Seg l.heap none q ns)
    (hf : ns.length ≤ fuel) : l.backward fuel (lastOr none ns) = some ns.reverse := by
  induction ns using List.reverseRecOn generalizing q fuel with
  | nil => cases fuel <;> rfl
  | append_singleton ns n ih =>
    obtain ⟨fuel, rfl⟩ : ∃ k, fuel = k + 1 := ⟨fuel - 1, by simp at hf; omega⟩
    have hrest := ih (seg_append.mp h).1 (by simpa using hf)
    rw [lastOr_concat, backward, h.lookup]
    simp only [Option.bind_eq_bind, Option.bind_some, hrest, Option.pure_def,
      List.reverse_append, List.reverse_singleton, List.singleton_append]

namespace Represents

theorem forward_eq (h : l.Represents ns) : l.forward l.size l.first = some ns := by
  rw [h.first]
  exact forward_of_seg h.seg (Nat.le_of_eq h.size.symm)

theorem backward_eq (h : l.Represents ns) : l.backward l.size l.last = some ns.reverse := by
  rw [h.last]
  exact backward_of_seg h.seg (Nat.le_of_eq h.size.symm)

theorem first_eq_none_iff (h : l.Represents ns) : l.first = none ↔ ns = [] := by
  rw [h.first]
  cases ns <;> simp

theorem last_eq_none_iff (h : l.Represents ns) : l.last = none ↔ ns = [] := by
  rw [h.last]
  rcases List.eq_nil_or_concat' ns with rfl | ⟨ns, n, rfl⟩ <;> simp

theorem pushBackMem (h : l.Represents ns) (x : α) (ha : a ∉ ns.map Prod.fst) :
    ∃ l', l.pushBackMem x a = some l' ∧ l'.Represents (ns ++ [(a, x)]) := by
  obtain ⟨l', hl', h', -⟩ := (h.store_none ha).pushBack x heap_store_self
  exact ⟨l', hl', h'⟩

theorem popFront (h : l.Represents (n :: ns)) :
    ∃ l', l.popFront = some (l', n.2) ∧ l'.Represents ns := by
  obtain ⟨l', hl', h'⟩ := remove (show l.Represents ([] ++ n :: ns) from h)
  have hfirst : l.first = some n.1 := h.first
  refine ⟨l', ?_, h'⟩
  simp only [LinkedList.popFront, h.front_eq, hfirst, hl', Option.bind_eq_bind, Option.bind_some,
    Option.pure_def]

theorem clearLoop (h : l.Represents ns) :
    ∃ l', clearLoop ns.length l = some l' ∧ l'.Represents [] := by
  induction ns generalizing l with
  | nil => exact ⟨l, by simp [LinkedList.clearLoop, h.size], h⟩
  | cons n ns ih =>
    obtain ⟨l₁, hl₁, h₁⟩ := remove (show l.Represents ([] ++ n :: ns) from h)
    obtain ⟨l', hl', h'⟩ := ih h₁
    have hfirst : l.first = some n.1 := h.first
    refine ⟨l', ?_, h'⟩
    rw [List.length_cons, LinkedList.clearLoop, if_pos (by simp [h.size]), hfirst]
    simp only [hl₁, Option.bind_eq_bind, Option.bind_some, hl']

theorem clear (h : l.Represents ns) : ∃ l', l.clear = some l' ∧ l'.Represents [] := by
  rw [LinkedList.clear, h.size]
  exact h.clearLoop

theorem exists_split (ha : a ∈ ns.map Prod.fst) :
    ∃ us n vs, ns = us ++ n :: vs ∧ n.1 = a ∧ ns.eraseP (·.1 = a) = us ++ vs := by
  obtain ⟨n, hn, rfl⟩ := List.mem_map.mp ha
  obtain ⟨m, us, vs, -, hm, hsplit, herase⟩ :=
    List.exists_of_eraseP (p := (·.1 = n.1)) hn (by simp)
  exact ⟨us, m, vs, hsplit, by simpa using hm, herase⟩

/-- An operation on the sequence is one on the pointers. -/
theorem step {op : ListOp α} {out : Option α} (h : l.Represents ns)
    (hs : ns.step op = some (ms, out)) : ∃ l', l.step op = some (l', out) ∧ l'.Represents ms := by
  cases op with
  | pushBack x a =>
    rw [Items.step, Option.ite_none_left_eq_some] at hs
    obtain ⟨ha, hs⟩ := hs
    cases hs
    obtain ⟨l', hl', h'⟩ := h.pushBackMem x ha
    exact ⟨l', by rw [LinkedList.step, hl', Option.map_some], h'⟩
  | removeIt a =>
    rw [Items.step, Option.ite_none_right_eq_some] at hs
    obtain ⟨ha, hs⟩ := hs
    cases hs
    obtain ⟨us, n, vs, rfl, rfl, herase⟩ := exists_split ha
    obtain ⟨l', hl', h', -⟩ := h.removeIt
    exact ⟨l', by rw [LinkedList.step, hl', Option.map_some], herase ▸ h'⟩
  | remove a =>
    rw [Items.step, Option.ite_none_right_eq_some] at hs
    obtain ⟨ha, hs⟩ := hs
    cases hs
    obtain ⟨us, n, vs, rfl, rfl, herase⟩ := exists_split ha
    obtain ⟨l', hl', h'⟩ := h.remove
    exact ⟨l', by rw [LinkedList.step, hl', Option.map_some], herase ▸ h'⟩
  | rotate =>
    cases hs
    cases ns with
    | nil => exact ⟨l, by simp [LinkedList.step, LinkedList.rotate, h.size], h⟩
    | cons n ns =>
      obtain ⟨l', hl', h', -⟩ := h.rotate
      refine ⟨l', by rw [LinkedList.step, hl', Option.map_some], ?_⟩
      rwa [List.rotate_cons_succ, List.rotate_zero]
  | popFront =>
    obtain ⟨n, hn, he⟩ := Option.map_eq_some_iff.mp hs
    cases he
    obtain ⟨ns, rfl⟩ := List.head?_eq_some_iff.mp hn
    obtain ⟨l', hl', h'⟩ := h.popFront
    exact ⟨l', by rw [LinkedList.step, hl', Option.map_some], h'⟩
  | clear =>
    cases hs
    obtain ⟨l', hl', h'⟩ := h.clear
    exact ⟨l', by rw [LinkedList.step, hl', Option.map_some], h'⟩

end Represents

/-- Every run on the sequence is one on the pointers, which show the sequence in both
directions. -/
theorem step_refines_items (ops : List (ListOp α)) (ns : Items α) (outs : List (Option α))
    (h : Run.outputs Items.step [] ops = some (ns, outs)) :
    ∃ l, Run.outputs step empty ops = some (l, outs) ∧
      l.forward l.size l.first = some ns ∧ l.backward l.size l.last = some ns.reverse ∧
      l.size = ns.length ∧ (l.first = none ↔ ns = []) ∧ (l.last = none ↔ ns = []) := by
  have hstep : ∀ (ns : Items α) (l : LinkedList α) op ns' out, l.Represents ns → True →
      ns.step op = some (ns', out) → ∃ l', l.step op = some (l', out) ∧ l'.Represents ns' :=
    fun _ _ _ _ _ hrep _ hs => hrep.step hs
  obtain ⟨l, hl, hrep⟩ := Run.outputs_simulation hstep represents_empty (Run.guarded_true _ _ _) h
  exact ⟨l, hl, hrep.forward_eq, hrep.backward_eq, hrep.size, hrep.first_eq_none_iff,
    hrep.last_eq_none_iff⟩

/-- Four items, the first of which goes to the end before the second one is taken out; its memory
is used again, and the new first item is popped. -/
def someOps : List (ListOp ℕ) :=
  [.pushBack 10 1, .pushBack 20 2, .pushBack 30 3, .rotate, .removeIt 3, .pushBack 40 3, .popFront,
    .remove 1]

theorem step_refines_items_someOps :
    ∃ l, Run.outputs step empty someOps =
        some (l, [none, none, none, none, none, none, some 20, none]) ∧
      l.forward l.size l.first = some [(3, 40)] ∧ l.backward l.size l.last = some [(3, 40)] := by
  have hrun : Run.outputs Items.step [] someOps =
      some ([(3, 40)], [none, none, none, none, none, none, some 20, none]) := by decide
  obtain ⟨l, hl, hf, hb, -⟩ := step_refines_items someOps _ _ hrun
  exact ⟨l, hl, hf, hb⟩

end LinkedList

end Koerix
