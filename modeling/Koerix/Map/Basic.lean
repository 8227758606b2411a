import Koerix.Lib.SearchTree
import Mathlib.Order.Lattice.Nat
import Mathlib.Data.Finset.Card
import Mathlib.Data.Finset.Lattice.Fold

/-! # Maps on the heap

`lib::Map` is an unbalanced search tree of heap entries that know their parent. A map is
its root pointer together with the heap that it shares with all other maps; a pointer is
an address, or none for null. Following null or a deleted entry is a fault, and a loop that
takes more steps than there are entries has met one of them twice and does not end. Both
are undefined results.
-/

namespace Koerix

structure MapEntry (K V : Type) where
  key : K
  value : V
  parent : Option ℕ
  left : Option ℕ
  right : Option ℕ

/-- The entries on the heap. -/
structure Entries (K V : Type) where
  dom : Finset ℕ
  entry : ℕ → MapEntry K V

/-- The allocator never hands out an address that is in use. -/
structure Allocator where
  pick : Finset ℕ → ℕ
  fresh : ∀ d, pick d ∉ d

/-- The address after the largest one in use. -/
def Allocator.next : Allocator where
  pick d := d.sup id + 1
  fresh d hd := by
    have hle := Finset.le_sup (f := id) hd
    simp only [id] at hle
    omega

/-- A pointer variable that `insert` can be given by reference. -/
inductive Link
  | root
  | left (a : ℕ)
  | right (a : ℕ)
  | parent (a : ℕ)
  deriving DecidableEq

structure Map (K V : Type) where
  root : Option ℕ
  heap : Entries K V

namespace Entries

variable {K V : Type}

def load (h : Entries K V) (a : ℕ) : Option (MapEntry K V) :=
  if a ∈ h.dom then some (h.entry a) else none

def store (h : Entries K V) (a : ℕ) (e : MapEntry K V) : Entries K V :=
  { h with entry := Function.update h.entry a e }

def grow (h : Entries K V) (a : ℕ) (e : MapEntry K V) : Entries K V :=
  { h.store a e with dom := insert a h.dom }

/-- `new` at an address that the allocator picks. -/
def new (h : Entries K V) (a : ℕ) (e : MapEntry K V) : Option (Entries K V) :=
  if a ∈ h.dom then none else some (h.grow a e)

def delete (h : Entries K V) (a : ℕ) : Entries K V := { h with dom := h.dom.erase a }

end Entries

namespace Map

variable {K V : Type}

/-- Null, before anything is inserted. -/
def empty (h : Entries K V) : Map K V := ⟨none, h⟩

def get (m : Map K V) : Link → Option (Option ℕ)
  | .root => some m.root
  | .left a => (m.heap.load a).map MapEntry.left
  | .right a => (m.heap.load a).map MapEntry.right
  | .parent a => (m.heap.load a).map MapEntry.parent

def set (m : Map K V) (link : Link) (p : Option ℕ) : Option (Map K V) :=
  match link with
  | .root => some { m with root := p }
  | .left a => (m.heap.load a).map fun e => { m with heap := m.heap.store a { e with left := p } }
  | .right a => (m.heap.load a).map fun e => { m with heap := m.heap.store a { e with right := p } }
  | .parent a =>
    (m.heap.load a).map fun e => { m with heap := m.heap.store a { e with parent := p } }

/-- Steps after which a loop over the entries is in a cycle. -/
def fuel (m : Map K V) : ℕ := m.heap.dom.card

def height (h : Entries K V) : ℕ → ℕ → Option ℕ
  | 0, _ => none
  | n + 1, a => do
    let e ← h.load a
    let left ← e.left.elim (some 0) (height h n)
    let right ← e.right.elim (some 0) (height h n)
    return 1 + max left right

/-- The link of the entry `p` that points to `child`. -/
def me (m : Map K V) (p child : ℕ) : Option Link := do
  let e ← m.heap.load p
  if e.left = some child then some (.left p)
  else if e.right = some child then some (.right p)
  else none

variable [LinearOrder K]

/-- `MapEntry::insert` of the entry `this` at the given link. -/
def insertAt (this : ℕ) : ℕ → Link → Option ℕ → Map K V → Option (Map K V)
  | 0, link, parent, m => do
    match ← m.get link with
    | none => (← m.set link (some this)).set (.parent this) parent
    | some _ => none
  | n + 1, link, parent, m => do
    match ← m.get link with
    | none => (← m.set link (some this)).set (.parent this) parent
    | some a =>
      if (← m.heap.load this).key < (← m.heap.load a).key then
        insertAt this n (.left a) (some a) m
      else insertAt this n (.right a) (some a) m

/-- `MapEntry::erase`. Both children and the parent are followed without a check. -/
def eraseEntry (m : Map K V) (this : ℕ) : Option (Map K V) := do
  let e ← m.heap.load this
  let right ← e.right
  let left ← e.left
  let rightHeight ← height m.heap m.fuel right
  let leftHeight ← height m.heap m.fuel left
  let parent ← e.parent
  let link ← m.me parent this
  let m ← m.set link (some (if leftHeight < rightHeight then right else left))
  insertAt right m.fuel (.parent this) none m

/-- `MapEntry::find` from a pointer that may be null. -/
def findFrom (h : Entries K V) (key : K) : ℕ → Option ℕ → Option (Option ℕ)
  | _, none => some none
  | 0, some _ => none
  | n + 1, some a => do
    let e ← h.load a
    if key < e.key then findFrom h key n e.left
    else if e.key < key then findFrom h key n e.right
    else some (some a)

def find (m : Map K V) (key : K) : Option (Option ℕ) := findFrom m.heap key m.fuel m.root

def erase (m : Map K V) (key : K) : Option (Bool × Map K V) := do
  match ← m.find key with
  | none => some (false, m)
  | some a =>
    let m ← m.eraseEntry a
    return (true, { m with heap := m.heap.delete a })

/-- Write `value` through the reference that `operator[]` returns. A new entry goes to the
address `a`. -/
def index (m : Map K V) (key : K) (value : V) (a : ℕ) : Option (Map K V) := do
  match ← m.find key with
  | some b =>
    let e ← m.heap.load b
    return { m with heap := m.heap.store b { e with value := value } }
  | none =>
    let heap ← m.heap.new a ⟨key, value, none, none, none⟩
    let m : Map K V := { m with heap := heap }
    insertAt a m.fuel .root none m

/-- `operator[]`: the entry whose value the returned reference names. A new entry goes to the
address `a`; its value is what the default constructor leaves there. -/
def ref (m : Map K V) (key : K) (junk : V) (a : ℕ) : Option (ℕ × Map K V) := do
  match ← m.find key with
  | some b => some (b, m)
  | none =>
    let heap ← m.heap.new a ⟨key, junk, none, none, none⟩
    let m : Map K V := { m with heap := heap }
    return (a, ← insertAt a m.fuel .root none m)

/-- An assignment through a reference to the value of the entry `b`. -/
def write (m : Map K V) (b : ℕ) (value : V) : Option (Map K V) :=
  (m.heap.load b).map fun e => { m with heap := m.heap.store b { e with value := value } }

/-- The value that `find` leads to. -/
def lookup (m : Map K V) (key : K) : Option (Option V) := do
  match ← m.find key with
  | none => some none
  | some a => (m.heap.load a).map fun e => some e.value

end Map

end Koerix
