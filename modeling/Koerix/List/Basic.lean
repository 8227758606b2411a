import Koerix.Lib.DoublyLinked

/-! # Linked lists

`lib::List` is a doubly linked list of items on the heap, with pointers to its first and its
last item and a count of its items. A pointer is an address, or none for null; following
null or a deleted item is a fault. A loop that takes more steps than the list has items
does not end.
-/

namespace Koerix

open DNode

abbrev ListItem (α : Type) := DNode ℕ α

/-- A list, with the items on the heap that were allocated for it. -/
structure LinkedList (α : Type) where
  heap : ℕ → Option (ListItem α)
  size : ℕ
  first : Option ℕ
  last : Option ℕ

namespace LinkedList

variable {α : Type}

def empty : LinkedList α := ⟨fun _ => none, 0, none, none⟩

def load (l : LinkedList α) (p : Option ℕ) : Option (ListItem α) := p.bind l.heap

def store (l : LinkedList α) (a : ℕ) (e : Option (ListItem α)) : LinkedList α :=
  { l with heap := Function.update l.heap a e }

/-- `p->next = v`. -/
def setNext (l : LinkedList α) (p v : Option ℕ) : Option (LinkedList α) := do
  let a ← p
  let e ← l.heap a
  return l.store a (some { e with next := v })

/-- `p->prev = v`. -/
def setPrev (l : LinkedList α) (p v : Option ℕ) : Option (LinkedList α) := do
  let a ← p
  let e ← l.heap a
  return l.store a (some { e with prev := v })

/-- `List::push_back`, with the address `a` of fresh memory for the item. -/
def pushBack (l : LinkedList α) (x : α) (a : ℕ) : Option (LinkedList α) := do
  if (l.heap a).isSome then none
  else
    let l := l.store a (some ⟨x, none, l.last⟩)
    let l ← if l.last.isSome then l.setNext l.last (some a) else some { l with first := some a }
    return { l with last := some a, size := l.size + 1 }

/-- A loop over the items, from `it` on, that ends at the first item with the property `P`. -/
def findFrom (l : LinkedList α) (P : α → Prop) [DecidablePred P] :
    ℕ → Option ℕ → Option (Option ℕ)
  | _, none => some none
  | 0, some _ => none
  | n + 1, some a => do
    let e ← l.heap a
    if P e.item then some (some a) else findFrom l P n e.next

/-- `List::find`. -/
def find [DecidableEq α] (l : LinkedList α) (x : α) : Option (Option ℕ) :=
  l.findFrom (· = x) l.size l.first

/-- `if (it->prev) it->prev->next = it->next`. -/
def unlinkPrev (l : LinkedList α) (it : Option ℕ) : Option (LinkedList α) := do
  let e ← l.load it
  if e.prev.isSome then l.setNext e.prev e.next else some l

/-- `if (it->next) it->next->prev = it->prev`. -/
def unlinkNext (l : LinkedList α) (it : Option ℕ) : Option (LinkedList α) := do
  let e ← l.load it
  if e.next.isSome then l.setPrev e.next e.prev else some l

/-- `List::remove_it`. -/
def removeIt (l : LinkedList α) (it : Option ℕ) : Option (LinkedList α) := do
  let l ← l.unlinkPrev it
  let l ← l.unlinkNext it
  let e ← l.load it
  return { l with
    first := if it = l.first then e.next else l.first
    last := if it = l.last then e.prev else l.last
    size := l.size - 1 }

/-- `List::remove`. -/
def remove (l : LinkedList α) (it : Option ℕ) : Option (LinkedList α) := do
  let l ← l.removeIt it
  return l.store (← it) none

def rotate (l : LinkedList α) : Option (LinkedList α) :=
  if l.size < 2 then some l
  else do
    let it := l.first
    let l ← l.setPrev (← l.load it).next none
    let l ← l.setPrev it l.last
    let l := { l with first := (← l.load it).next }
    let l ← l.setNext it none
    let l ← l.setNext l.last it
    return { l with last := it }

def front (l : LinkedList α) : Option α := do
  if 0 < l.size then
    let e ← l.load l.first
    return e.item
  else none

/-- The list has the given items, at these addresses and in this order. -/
structure Represents (l : LinkedList α) (ns : List (ℕ × α)) : Prop where
  nodup : (ns.map Prod.fst).Nodup
  seg : Seg l.heap none none ns
  size : l.size = ns.length
  first : l.first = headOr none ns
  last : l.last = lastOr none ns

variable {l l' : LinkedList α} {ns ms : List (ℕ × α)} {n m : ℕ × α} {a : ℕ}
  {p q v : Option ℕ} {x : α}

@[simp] theorem size_store {e : Option (ListItem α)} : (l.store a e).size = l.size := rfl

@[simp] theorem first_store {e : Option (ListItem α)} : (l.store a e).first = l.first := rfl

@[simp] theorem last_store {e : Option (ListItem α)} : (l.store a e).last = l.last := rfl

@[simp] theorem heap_store_self {e : Option (ListItem α)} : (l.store a e).heap a = e :=
  Function.update_self ..

theorem heap_store_of_ne {e : Option (ListItem α)} {b : ℕ} (hb : b ≠ a) :
    (l.store a e).heap b = l.heap b :=
  Function.update_of_ne hb ..

theorem setNext_eq {e : ListItem α} (he : l.heap a = some e) :
    l.setNext (some a) v = some (l.store a (some { e with next := v })) := by
  simp [setNext, he]

theorem setPrev_eq {e : ListItem α} (he : l.heap a = some e) :
    l.setPrev (some a) v = some (l.store a (some { e with prev := v })) := by
  simp [setPrev, he]

theorem represents_empty : (empty : LinkedList α).Represents [] :=
  ⟨List.nodup_nil, trivial, rfl, rfl, rfl⟩

namespace Represents

theorem heap_eq (h : l.Represents (ns ++ n :: ms)) :
    l.heap n.1 = some ⟨n.2, headOr none ms, lastOr none ns⟩ :=
  h.seg.lookup

theorem heap_first (h : l.Represents (n :: ms)) :
    l.heap n.1 = some ⟨n.2, headOr none ms, none⟩ :=
  heap_eq (show l.Represents ([] ++ n :: ms) from h)

theorem notMem (h : l.Represents (ns ++ n :: ms)) :
    n.1 ∉ ns.map Prod.fst ∧ n.1 ∉ ms.map Prod.fst := by
  have hnd := h.nodup
  rw [List.map_append, List.map_cons, List.nodup_append, List.nodup_cons] at hnd
  exact ⟨fun hm => hnd.2.2 n.1 hm n.1 List.mem_cons_self rfl, hnd.2.1.1⟩

theorem front_eq (h : l.Represents (n :: ns)) : l.front = some n.2 := by
  have hn := h.heap_first
  simp [front, load, h.size, h.first, hn]

/-- Only the last item and the pointer to it change. -/
theorem pushBack (h : l.Represents ns) (x : α) (ha : l.heap a = none) :
    ∃ l', l.pushBack x a = some l' ∧ l'.Represents (ns ++ [(a, x)]) ∧
      ∀ b, b ∉ (ns ++ [(a, x)]).map Prod.fst → l'.heap b = l.heap b := by
  have hnew : a ∉ ns.map Prod.fst := by
    intro hmem
    obtain ⟨n, hn, rfl⟩ := List.mem_map.mp hmem
    obtain ⟨ns₁, ns₂, rfl⟩ := List.append_of_mem hn
    rw [h.heap_eq] at ha
    cases ha
  have hnodup : ((ns ++ [(a, x)]).map Prod.fst).Nodup := by
    rw [List.map_append, List.nodup_append]
    refine ⟨h.nodup, by simp, ?_⟩
    intro b hb c hc he
    rw [List.map_singleton, List.mem_singleton] at hc
    rw [he, hc] at hb
    exact hnew hb
  have hseg := h.seg.update_of_notMem hnew (some ⟨x, none, l.last⟩)
  rcases List.eq_nil_or_concat' ns with rfl | ⟨ns, n, rfl⟩
  · have hlast : l.last = none := h.last
    refine ⟨⟨Function.update l.heap a (some ⟨x, none, none⟩), l.size + 1, some a, some a⟩, ?_,
      ⟨hnodup, ⟨Function.update_self .., trivial⟩, by simp [h.size], rfl, rfl⟩, fun b hb => ?_⟩
    · simp [LinkedList.pushBack, ha, hlast]
      rfl
    · exact Function.update_of_ne (by simpa using hb) ..
  · have hne : n.1 ≠ a := fun he => hnew (by simp [← he])
    have hlast : l.last = some n.1 := h.last.trans lastOr_concat
    have hstore : (l.store a (some ⟨x, none, some n.1⟩)).heap n.1 =
        some ⟨n.2, none, lastOr none ns⟩ :=
      (heap_store_of_ne hne).trans h.heap_eq
    refine ⟨{ (l.store a (some ⟨x, none, some n.1⟩)).store n.1 (some ⟨n.2, some a, lastOr none ns⟩)
      with last := some a, size := l.size + 1 }, ?_, ⟨hnodup, ?_, ?_, ?_, ?_⟩, fun b hb => ?_⟩
    · simp [LinkedList.pushBack, ha, hlast, setNext_eq hstore]
    · rw [hlast] at hseg
      refine seg_append.mpr ⟨hseg.update_next h.notMem.1, ?_, trivial⟩
      rw [heap_store_of_ne hne.symm, heap_store_self, lastOr_concat]
      rfl
    · simp [h.size]
    · have hfirst := h.first
      rw [headOr_append] at hfirst ⊢
      cases ns <;> exact hfirst
    · exact (lastOr_concat (n := (a, x))).symm
    · simp only [List.map_append, List.map_cons, List.map_nil, List.mem_append, List.mem_singleton,
        not_or] at hb
      exact (heap_store_of_ne hb.1.2).trans (heap_store_of_ne hb.2)

end Represents

/-- Only links of the given items have been written. -/
structure Relinked (l l' : LinkedList α) (ns : List (ℕ × α)) : Prop where
  heap_eq : ∀ b, b ∉ ns.map Prod.fst → l'.heap b = l.heap b
  size_eq : l'.size = l.size
  first_eq : l'.first = l.first
  last_eq : l'.last = l.last

theorem relinked_store {e : Option (ListItem α)} (ha : a ∈ ns.map Prod.fst) :
    Relinked l (l.store a e) ns where
  heap_eq _ hb := heap_store_of_ne fun he => hb (he ▸ ha)
  size_eq := rfl
  first_eq := rfl
  last_eq := rfl

theorem setPrev_first (hs : Seg l.heap p q (n :: ns)) (hn : n.1 ∉ ns.map Prod.fst) :
    ∃ l', l.setPrev (some n.1) v = some l' ∧ Seg l'.heap v q (n :: ns) ∧
      Relinked l l' (n :: ns) :=
  ⟨_, setPrev_eq hs.1, hs.update_prev hn, relinked_store (by simp)⟩

theorem setNext_last (hs : Seg l.heap p q (ns ++ [n])) (hn : n.1 ∉ ns.map Prod.fst) :
    ∃ l', l.setNext (some n.1) v = some l' ∧ Seg l'.heap p v (ns ++ [n]) ∧
      Relinked l l' (ns ++ [n]) :=
  ⟨_, setNext_eq hs.lookup, hs.update_next hn, relinked_store (by simp)⟩

namespace Represents

/-- The first item becomes the last one. -/
theorem rotate (h : l.Represents (n :: ns)) :
    ∃ l', l.rotate = some l' ∧ l'.Represents (ns ++ [n]) ∧
      ∀ b, b ∉ (n :: ns).map Prod.fst → l'.heap b = l.heap b := by
  cases ns with
  | nil => exact ⟨l, by simp [LinkedList.rotate, h.size], h, fun _ _ => rfl⟩
  | cons m ns =>
    have hnd := h.nodup
    rw [List.map_cons, List.nodup_cons] at hnd
    have hm : m.1 ∉ ns.map Prod.fst := by
      rw [List.map_cons, List.nodup_cons] at hnd
      exact hnd.2.1
    have hn := h.heap_first
    -- `it->next->prev = nullptr`
    obtain ⟨l₁, hl₁, hs₁, hr₁⟩ := setPrev_first (v := none) h.seg.2 hm
    have hn₁ : l₁.heap n.1 = some ⟨n.2, some m.1, none⟩ := (hr₁.heap_eq _ hnd.1).trans hn
    obtain ⟨init, z, hz⟩ : ∃ init z, m :: ns = init ++ [z] := by
      rcases List.eq_nil_or_concat' (m :: ns) with hnil | hcons
      · cases hnil
      · exact hcons
    have hlast : l.last = some z.1 := by
      rw [h.last, lastOr_cons, hz, lastOr_concat]
    have hznd : z.1 ∉ init.map Prod.fst := by
      have := hnd.2
      rw [hz, List.map_append, List.nodup_append] at this
      exact fun hmem => this.2.2 z.1 hmem z.1 (by simp) rfl
    -- `it->prev = m_last` and, after `m_first` has moved, `it->next = nullptr`
    let l₂ : LinkedList α :=
      ⟨Function.update l₁.heap n.1 (some ⟨n.2, some m.1, some z.1⟩), l₁.size, some m.1, some z.1⟩
    let l₃ : LinkedList α :=
      ⟨Function.update l₁.heap n.1 (some ⟨n.2, none, some z.1⟩), l₁.size, some m.1, some z.1⟩
    have hl₃ : l₂.setNext (some n.1) none = some l₃ := by
      simp [setNext, store, l₂, l₃]
    have hs₃ : Seg l₃.heap none none (m :: ns) := hs₁.update_of_notMem hnd.1 _
    -- `m_last->next = it`
    rw [hz] at hs₃ hnd
    obtain ⟨l₄, hl₄, hs₄, hr₄⟩ := setNext_last (v := some n.1) hs₃ hznd
    refine ⟨{ l₄ with last := some n.1 }, ?_, ⟨?_, ?_, ?_, ?_, ?_⟩, fun b hb => ?_⟩
    · have hsize : ¬ l.size < 2 := by simp [h.size]
      have hfirst : l.first = some n.1 := h.first
      rw [LinkedList.rotate, if_neg hsize]
      simp only [hfirst, load, Option.bind_some, hn, headOr_cons, hl₁, setPrev_eq hn₁,
        Option.bind_eq_bind, heap_store_self, last_store, hr₁.last_eq, hlast]
      exact Option.bind_eq_some_iff.mpr ⟨l₃, hl₃, Option.bind_eq_some_iff.mpr ⟨l₄, hl₄, rfl⟩⟩
    · rw [List.map_append, List.nodup_append]
      refine ⟨hz ▸ hnd.2, by simp, ?_⟩
      intro b hb c hc he
      rw [List.map_singleton, List.mem_singleton] at hc
      rw [he, hc, hz] at hb
      exact hnd.1 hb
    · rw [hz]
      refine seg_append.mpr ⟨hs₄, ?_, trivial⟩
      rw [lastOr_concat]
      exact (hr₄.heap_eq _ hnd.1).trans (Function.update_self ..)
    · have hsize : l₄.size = l.size := hr₄.size_eq.trans hr₁.size_eq
      simp [hsize, h.size]
    · exact hr₄.first_eq
    · exact lastOr_concat.symm
    · rw [List.map_cons, List.mem_cons, not_or] at hb
      calc l₄.heap b = l₃.heap b := hr₄.heap_eq b (hz ▸ hb.2)
        _ = l₁.heap b := Function.update_of_ne hb.1 ..
        _ = l.heap b := hr₁.heap_eq b hb.2

/-- The item is cut out, and its neighbours are linked to each other. -/
theorem removeIt (h : l.Represents (ns ++ n :: ms)) :
    ∃ l', l.removeIt (some n.1) = some l' ∧ l'.Represents (ns ++ ms) ∧
      ∀ b, b ∉ (ns ++ ms).map Prod.fst → l'.heap b = l.heap b := by
  obtain ⟨hns, hms⟩ := h.notMem
  have hn := h.heap_eq
  have hnd := h.nodup
  rw [List.map_append, List.map_cons, List.nodup_append, List.nodup_cons] at hnd
  obtain ⟨hndn, ⟨-, hndm⟩, hdisj⟩ := hnd
  obtain ⟨hsn, -, hsm⟩ := seg_append.mp h.seg
  -- `it->prev->next = it->next`
  obtain ⟨l₁, hl₁, hs₁, hr₁⟩ : ∃ l₁, l.unlinkPrev (some n.1) = some l₁ ∧
      Seg l₁.heap none (headOr none ms) ns ∧ Relinked l l₁ ns := by
    simp only [unlinkPrev, load, Option.bind_some, hn, Option.bind_eq_bind]
    rcases List.eq_nil_or_concat' ns with rfl | ⟨ns, y, rfl⟩
    · exact ⟨l, rfl, trivial, fun _ _ => rfl, rfl, rfl, rfl⟩
    · rw [lastOr_concat]
      refine setNext_last hsn ?_
      rw [List.map_append, List.nodup_append] at hndn
      exact fun hmem => hndn.2.2 y.1 hmem y.1 (by simp) rfl
  have hsm₁ : Seg l₁.heap (some n.1) none ms := by
    refine hsm.congr fun m hm => hr₁.heap_eq _ fun hmem => ?_
    exact hdisj _ hmem _ (List.mem_cons_of_mem _ (List.mem_map_of_mem hm)) rfl
  have hn₁ := (hr₁.heap_eq _ hns).trans hn
  -- `it->next->prev = it->prev`
  obtain ⟨l₂, hl₂, hs₂, hr₂⟩ : ∃ l₂, l₁.unlinkNext (some n.1) = some l₂ ∧
      Seg l₂.heap (lastOr none ns) none ms ∧ Relinked l₁ l₂ ms := by
    simp only [unlinkNext, load, Option.bind_some, hn₁, Option.bind_eq_bind]
    cases ms with
    | nil => exact ⟨l₁, rfl, trivial, fun _ _ => rfl, rfl, rfl, rfl⟩
    | cons z ms =>
      rw [List.map_cons, List.nodup_cons] at hndm
      exact setPrev_first hsm₁ hndm.1
  have hn₂ := (hr₂.heap_eq _ hms).trans hn₁
  have hs₂' : Seg l₂.heap none (headOr none ms) ns := by
    refine hs₁.congr fun m hm => hr₂.heap_eq _ fun hmem => ?_
    exact hdisj _ (List.mem_map_of_mem hm) _ (List.mem_cons_of_mem _ hmem) rfl
  have hfirst : l₂.first = headOr (some n.1) ns := by
    rw [hr₂.first_eq, hr₁.first_eq, h.first, headOr_append, headOr_cons]
  have hlast : l₂.last = lastOr (some n.1) ms := by
    rw [hr₂.last_eq, hr₁.last_eq, h.last, lastOr_append, lastOr_cons]
  refine ⟨⟨l₂.heap, l.size - 1, headOr none (ns ++ ms), lastOr none (ns ++ ms)⟩, ?_,
    ⟨?_, seg_append.mpr ⟨hs₂', hs₂⟩, ?_, rfl, rfl⟩, fun b hb => ?_⟩
  · have hf : (if some n.1 = l₂.first then headOr none ms else l₂.first) =
        headOr none (ns ++ ms) := by
      rw [hfirst, headOr_append]
      cases ns with
      | nil => simp
      | cons y ns =>
        rw [headOr_cons, headOr_cons, if_neg]
        intro he
        rw [Option.some.injEq] at he
        simp [he] at hns
    have hl : (if some n.1 = l₂.last then lastOr none ns else l₂.last) =
        lastOr none (ns ++ ms) := by
      rw [hlast, lastOr_append]
      rcases List.eq_nil_or_concat' ms with rfl | ⟨ms, z, rfl⟩
      · simp
      · rw [lastOr_concat, lastOr_concat, if_neg]
        intro he
        rw [Option.some.injEq] at he
        simp [he] at hms
    simp only [LinkedList.removeIt, load, Option.bind_some, hl₁, hl₂, hn₂, Option.bind_eq_bind,
      Option.pure_def, hf, hl, hr₁.size_eq, hr₂.size_eq]
  · rw [List.map_append, List.nodup_append]
    exact ⟨hndn, hndm, fun a ha b hb => hdisj a ha b (List.mem_cons_of_mem _ hb)⟩
  · simp [h.size]
  · rw [List.map_append, List.mem_append, not_or] at hb
    exact (hr₂.heap_eq b hb.2).trans (hr₁.heap_eq b hb.1)

theorem store_none (h : l.Represents ns) (ha : a ∉ ns.map Prod.fst) :
    (l.store a none).Represents ns :=
  ⟨h.nodup, h.seg.update_of_notMem ha none, h.size, h.first, h.last⟩

theorem remove (h : l.Represents (ns ++ n :: ms)) :
    ∃ l', l.remove (some n.1) = some l' ∧ l'.Represents (ns ++ ms) := by
  obtain ⟨l₁, hl₁, h₁, -⟩ := h.removeIt
  have hn : n.1 ∉ (ns ++ ms).map Prod.fst := by
    rw [List.map_append, List.mem_append, not_or]
    exact h.notMem
  exact ⟨l₁.store n.1 none, by simp [LinkedList.remove, hl₁], h₁.store_none hn⟩

variable {P : α → Prop} [DecidablePred P]

theorem findFrom_eq (h : Seg l.heap p none (ns ++ n :: ms)) (hn : P n.2) (hx : ∀ m ∈ ns, ¬ P m.2)
    {k : ℕ} (hk : ns.length < k) :
    l.findFrom P k (headOr none (ns ++ n :: ms)) = some (some n.1) := by
  induction ns generalizing p k with
  | nil =>
    obtain ⟨k, rfl⟩ : ∃ j, k = j + 1 := ⟨k - 1, by simp at hk; omega⟩
    simp [findFrom, h.1, hn]
  | cons m ns ih =>
    obtain ⟨k, rfl⟩ : ∃ j, k = j + 1 := ⟨k - 1, by simp at hk; omega⟩
    rw [List.cons_append, headOr_cons, findFrom, h.1, Option.bind_eq_bind, Option.bind_some]
    rw [if_neg (hx m List.mem_cons_self)]
    exact ih h.2 (fun m' hm' => hx m' (List.mem_cons_of_mem m hm')) (by simpa using hk)

theorem findFrom_eq_none (h : Seg l.heap p none ns) (hx : ∀ m ∈ ns, ¬ P m.2) {k : ℕ}
    (hk : ns.length ≤ k) : l.findFrom P k (headOr none ns) = some none := by
  induction ns generalizing p k with
  | nil => cases k <;> rfl
  | cons m ns ih =>
    obtain ⟨k, rfl⟩ : ∃ j, k = j + 1 := ⟨k - 1, by simp at hk; omega⟩
    rw [headOr_cons, findFrom, h.1, Option.bind_eq_bind, Option.bind_some]
    rw [if_neg (hx m List.mem_cons_self)]
    exact ih h.2 (fun m' hm' => hx m' (List.mem_cons_of_mem m hm')) (by simpa using hk)

theorem findFrom_first (h : l.Represents (ns ++ n :: ms)) (hn : P n.2) (hx : ∀ m ∈ ns, ¬ P m.2) :
    l.findFrom P l.size l.first = some (some n.1) := by
  rw [h.first]
  exact findFrom_eq h.seg hn hx (by simp [h.size])

theorem findFrom_first_eq_none (h : l.Represents ns) (hx : ∀ m ∈ ns, ¬ P m.2) :
    l.findFrom P l.size l.first = some none := by
  rw [h.first]
  exact findFrom_eq_none h.seg hx (Nat.le_of_eq h.size.symm)

variable [DecidableEq α]

theorem find_eq (h : l.Represents (ns ++ n :: ms)) (hx : ∀ m ∈ ns, m.2 ≠ n.2) :
    l.find n.2 = some (some n.1) :=
  h.findFrom_first rfl hx

theorem find_eq_none_iff (h : l.Represents ns) : l.find x = some none ↔ x ∉ ns.map Prod.snd := by
  constructor
  · intro hf hx
    obtain ⟨us, vs, hsplit, hus⟩ := List.eq_append_cons_of_mem hx
    obtain ⟨ns₁, ns₂, rfl, rfl, hns⟩ := List.map_eq_append_iff.mp hsplit
    obtain ⟨n, ns₂, rfl, rfl, rfl⟩ := List.map_eq_cons_iff.mp hns
    have hne : ∀ m ∈ ns₁, m.2 ≠ n.2 := by
      intro m hm he
      exact hus (he ▸ List.mem_map_of_mem hm)
    rw [h.find_eq hne] at hf
    cases hf
  · intro hx
    refine h.findFrom_first_eq_none fun m hm he => hx ?_
    exact he ▸ List.mem_map_of_mem hm

end Represents

end LinkedList

end Koerix
