import Koerix.Heap.Basic
import Koerix.Lib.Yields

/-! # The block list in memory

A list of block sizes determines where every block is and what its header has
to hold. `Seg` says that the headers of consecutive blocks are in memory as the
list demands. It splits at every block, it does not depend on memory outside
the headers, and the links at its ends can be moved on their own.
-/

namespace Koerix

open ByteMemory

namespace Heap

/-- Read a field of the block at `b` in a view. -/
def fetch (v : View) (b : ℕ) (f : Field) : Option ℕ := load v (b + f.offset) f.length

/-- Write a field of the block at `b` in a view. -/
def put (v : View) (b : ℕ) (f : Field) (x : ℕ) : View := write v (b + f.offset) f.length x

/-- All addresses from `lo` up to `hi` are mapped. -/
def Covers (v : View) (lo hi : ℕ) : Prop := ∀ p, lo ≤ p → p < hi → v p ≠ none

variable {h : Heap} {v v' : View} {a b c n p x prev next lo hi : ℕ} {f g : Field}

theorem Field.offset_add_length_le (f : Field) : f.offset + f.length ≤ headerSize := by
  cases f <;> decide

theorem put_apply_of_notMem (hp : p < b ∨ b + headerSize ≤ p) : put v b f x p = v p := by
  have := f.offset_add_length_le
  exact write_apply_of_notMem (by omega)

theorem fetch_put_same (hx : x < 256 ^ f.length) : fetch (put v b f x) b f = some x :=
  load_write_eq hx

theorem fetch_put_of_ne (hne : g ≠ f) : fetch (put v b f x) b g = fetch v b g := by
  refine load_write_of_disjoint ?_
  cases f <;> cases g <;> first | exact absurd rfl hne | (simp [Field.offset, Field.length])

theorem fetch_congr (hp : ∀ p, b ≤ p → p < b + headerSize → v' p = v p) :
    fetch v' b f = fetch v b f := by
  have := f.offset_add_length_le
  exact load_congr fun p _ _ => hp p (by omega) (by omega)

theorem fetch_put_of_disjoint (hp : c + headerSize ≤ b ∨ b + headerSize ≤ c) :
    fetch (put v b f x) c g = fetch v c g :=
  fetch_congr fun _ _ _ => put_apply_of_notMem (by omega)

theorem fetch_write_of_disjoint (hp : c + headerSize ≤ a ∨ a + n ≤ c) :
    fetch (write v a n x) c g = fetch v c g :=
  fetch_congr fun _ _ _ => write_apply_of_notMem (by omega)

namespace Covers

theorem write (hc : Covers v lo hi) : Covers (write v a n x) lo hi :=
  fun p hlo hhi => write_ne_none (hc p hlo hhi)

theorem put (hc : Covers v lo hi) : Covers (put v b f x) lo hi := hc.write

theorem mono {lo' hi' : ℕ} (hc : Covers v lo hi) (hlo : lo ≤ lo') (hhi : hi' ≤ hi) :
    Covers v lo' hi' := fun p h₁ h₂ => hc p (by omega) (by omega)

end Covers

/-! The statements of the heap code, one after the other, in a heap `h` whose memory has become
`vm`. -/

theorem Shows.get {vm : Vm} (hs : Shows h.pml4 vm v)
    (hc : Covers v b (b + headerSize)) (f : Field) :
    Heap.get { h with vm } b f = fetch v b f := by
  have := f.offset_add_length_le
  exact hs.load_eq fun p _ _ => hc p (by omega) (by omega)

namespace ShowsFrom

variable {grow : Bool} {vm₀ vm : Vm} {β : Type} {k : Heap → Option β} {Q : β → Prop}
  (hs : ShowsFrom grow h.pml4 vm₀ vm v)

include hs

theorem get_bind {k : ℕ → Option β} (hc : Covers v b (b + headerSize)) (hx : fetch v b f = some x)
    (hk : Yields (k x) Q) : Yields (Heap.get { h with vm } b f >>= k) Q :=
  .bind_some ((hs.shows.get hc f).trans hx) hk

theorem set (hc : Covers v b (b + headerSize)) (f : Field) (x : ℕ) :
    Yields (Heap.set b f x { h with vm }) fun h' =>
      ∃ vm', h' = { h with vm := vm' } ∧ ShowsFrom grow h.pml4 vm₀ vm' (put v b f x) := by
  have := f.offset_add_length_le
  obtain ⟨vm', hvm', -, h', hb⟩ := hs.shows.store (x := x) (a := b + f.offset) (n := f.length)
    fun p _ _ => hc p (by omega) (by omega)
  exact ⟨{ h with vm := vm' }, by rw [Heap.set, hvm']; rfl, vm', rfl, h', hs.beside.trans (hb grow)⟩

theorem set_bind (hc : Covers v b (b + headerSize))
    (hk : ∀ vm', ShowsFrom grow h.pml4 vm₀ vm' (put v b f x) → Yields (k { h with vm := vm' }) Q) :
    Yields (Heap.set b f x { h with vm } >>= k) Q := by
  refine (hs.set hc f x).bind ?_
  rintro _ ⟨vm', rfl, h'⟩
  exact hk vm' h'

theorem memset_bind (hc : Covers v a (a + n))
    (hk : ∀ vm', ShowsFrom grow h.pml4 vm₀ vm' (write v a n 0) →
      Yields (k { h with vm := vm' }) Q) :
    Yields (Heap.memset a n { h with vm } >>= k) Q := by
  obtain ⟨vm', hvm', -, h', hb⟩ := hs.shows.memset hc
  exact .bind_some (by rw [Heap.memset, hvm']; rfl) (hk vm' ⟨h', hs.beside.trans (hb grow)⟩)

end ShowsFrom

/-- A block: its size with the header, and whether it is free. -/
structure Block where
  size : ℕ
  available : Bool
  deriving DecidableEq, Repr

/-- The memory that a list of blocks takes. -/
def total (bs : List Block) : ℕ := (bs.map Block.size).sum

/-- The address of the first block, if there is one. -/
def first (a next : ℕ) : List Block → ℕ
  | [] => next
  | _ :: _ => a

/-- The address of the last block, if there is one. -/
def lastAddr (prev a : ℕ) : List Block → ℕ
  | [] => prev
  | b :: bs => lastAddr a (a + b.size) bs

/-- The blocks with their addresses. -/
def placed (a : ℕ) : List Block → List (ℕ × Block)
  | [] => []
  | b :: bs => (a, b) :: placed (a + b.size) bs

/-- The header of a block at `a`. -/
structure Header (v : View) (a prev next : ℕ) (b : Block) : Prop where
  available : fetch v a .available = some b.available.toNat
  magic : fetch v a .magic = some heapMagic
  prev : fetch v a .prev = some prev
  next : fetch v a .next = some next
  size : fetch v a .size = some b.size

/-- The headers of consecutive blocks from `a` on, linked to what is before and after them. -/
def Seg (v : View) (prev a : ℕ) : List Block → ℕ → Prop
  | [], _ => True
  | b :: bs, next => Header v a prev (first (a + b.size) next bs) b ∧ headerSize ≤ b.size ∧
      Seg v a (a + b.size) bs next

variable {blk : Block} {bs xs ys : List Block}

@[simp] theorem total_nil : total [] = 0 := rfl
@[simp] theorem total_cons : total (blk :: bs) = blk.size + total bs := by simp [total]
@[simp] theorem total_append : total (xs ++ ys) = total xs + total ys := by simp [total]

theorem first_append : first a next (xs ++ ys) = first a (first (a + total xs) next ys) xs := by
  cases xs <;> simp [first]

theorem lastAddr_append : lastAddr prev a (xs ++ ys) =
    lastAddr (lastAddr prev a xs) (a + total xs) ys := by
  induction xs generalizing prev a with
  | nil => rfl
  | cons b xs ih => simp [lastAddr, ih, Nat.add_assoc]

theorem lastAddr_congr {prev' : ℕ} (hne : bs ≠ []) : lastAddr prev a bs = lastAddr prev' a bs := by
  cases bs with
  | nil => exact absurd rfl hne
  | cons => rfl

theorem le_lastAddr (hne : bs ≠ []) : a ≤ lastAddr prev a bs := by
  induction bs generalizing prev a with
  | nil => exact absurd rfl hne
  | cons b bs ih =>
    rw [lastAddr]
    rcases eq_or_ne bs [] with rfl | hbs
    · exact le_rfl
    · exact le_trans (Nat.le_add_right a b.size) (ih hbs)

theorem placed_append : placed a (xs ++ ys) = placed a xs ++ placed (a + total xs) ys := by
  induction xs generalizing a with
  | nil => rfl
  | cons b xs ih => simp [placed, ih, Nat.add_assoc]

theorem placed_bounds {k : ℕ × Block} (hk : k ∈ placed a bs) :
    a ≤ k.1 ∧ k.1 + k.2.size ≤ a + total bs := by
  induction bs generalizing a with
  | nil => cases hk
  | cons b bs ih =>
    rw [total_cons]
    rcases List.mem_cons.mp hk with rfl | hk
    · exact ⟨le_rfl, by dsimp only; omega⟩
    · have := ih hk
      omega

theorem exists_split_of_placed {k : ℕ × Block} (hk : k ∈ placed a bs) :
    ∃ xs ys, bs = xs ++ k.2 :: ys ∧ k.1 = a + total xs := by
  induction bs generalizing a with
  | nil => cases hk
  | cons b bs ih =>
    rcases List.mem_cons.mp hk with rfl | hk
    · exact ⟨[], bs, rfl, rfl⟩
    · obtain ⟨xs, ys, rfl, he⟩ := ih hk
      exact ⟨b :: xs, ys, rfl, by rw [he, total_cons, Nat.add_assoc]⟩

theorem placed_disjoint {k l : ℕ × Block} (hk : k ∈ placed a bs) (hl : l ∈ placed a bs) :
    k = l ∨ k.1 + k.2.size ≤ l.1 ∨ l.1 + l.2.size ≤ k.1 := by
  induction bs generalizing a with
  | nil => cases hk
  | cons b bs ih =>
    rcases List.mem_cons.mp hk with rfl | hk <;> rcases List.mem_cons.mp hl with rfl | hl
    · exact Or.inl rfl
    · exact Or.inr (Or.inl (placed_bounds hl).1)
    · exact Or.inr (Or.inr (placed_bounds hk).1)
    · exact ih hk hl

theorem Header.congr (hh : Header v a prev next blk)
    (hp : ∀ p, a ≤ p → p < a + headerSize → v' p = v p) : Header v' a prev next blk where
  available := (fetch_congr hp).trans hh.available
  magic := (fetch_congr hp).trans hh.magic
  prev := (fetch_congr hp).trans hh.prev
  next := (fetch_congr hp).trans hh.next
  size := (fetch_congr hp).trans hh.size

namespace Seg

theorem append : Seg v prev a (xs ++ ys) next ↔
    Seg v prev a xs (first (a + total xs) next ys) ∧
      Seg v (lastAddr prev a xs) (a + total xs) ys next := by
  induction xs generalizing prev a with
  | nil => simp [Seg, lastAddr]
  | cons b xs ih =>
    simp only [List.cons_append, Seg, ih, first_append, lastAddr, total_cons, Nat.add_assoc,
      and_assoc]

theorem size_le (hs : Seg v prev a bs next) {k : ℕ × Block} (hk : k ∈ placed a bs) :
    headerSize ≤ k.2.size := by
  induction bs generalizing prev a with
  | nil => cases hk
  | cons b bs ih =>
    obtain ⟨-, hb, hs⟩ := hs
    rcases List.mem_cons.mp hk with rfl | hk
    · exact hb
    · exact ih hs hk

theorem congr (hs : Seg v prev a bs next)
    (hp : ∀ k ∈ placed a bs, ∀ p, k.1 ≤ p → p < k.1 + headerSize → v' p = v p) :
    Seg v' prev a bs next := by
  induction bs generalizing prev a with
  | nil => trivial
  | cons b bs ih =>
    obtain ⟨hh, hb, hs⟩ := hs
    exact ⟨hh.congr (hp _ List.mem_cons_self), hb, ih hs fun k hk =>
      hp k (List.mem_cons_of_mem _ hk)⟩

theorem congr_outside (hs : Seg v prev a bs next)
    (hp : ∀ p, a ≤ p → p < a + total bs → v' p = v p) : Seg v' prev a bs next := by
  refine hs.congr fun k hk p hlo hhi => ?_
  have hb := placed_bounds hk
  have := hs.size_le hk
  exact hp p (by omega) (by omega)

theorem put_prev (hs : Seg v prev a bs next) (hx : x < 2 ^ 64) :
    Seg (put v a .prev x) x a bs next := by
  cases bs with
  | nil => trivial
  | cons b bs =>
    obtain ⟨hh, hb, hs⟩ := hs
    refine ⟨⟨?_, ?_, fetch_put_same hx, ?_, ?_⟩, hb, hs.congr_outside fun p hlo _ =>
      put_apply_of_notMem (by omega)⟩
    · rw [fetch_put_of_ne (by decide), hh.available]
    · rw [fetch_put_of_ne (by decide), hh.magic]
    · rw [fetch_put_of_ne (by decide), hh.next]
    · rw [fetch_put_of_ne (by decide), hh.size]

theorem put_next (hs : Seg v prev a bs next) (hx : x < 2 ^ 64) (hne : bs ≠ []) :
    Seg (put v (lastAddr prev a bs) .next x) prev a bs x := by
  induction bs generalizing prev a with
  | nil => exact absurd rfl hne
  | cons b bs ih =>
    obtain ⟨hh, hb, hs⟩ := hs
    rcases eq_or_ne bs [] with rfl | hbs
    · refine ⟨⟨?_, ?_, ?_, fetch_put_same hx, ?_⟩, hb, trivial⟩ <;>
        rw [lastAddr, lastAddr, fetch_put_of_ne (by decide)]
      · exact hh.available
      · exact hh.magic
      · exact hh.prev
      · exact hh.size
    · have hlast : a + b.size ≤ lastAddr a (a + b.size) bs := le_lastAddr hbs
      have hfirst : first (a + b.size) x bs = first (a + b.size) next bs := by
        cases bs with
        | nil => exact absurd rfl hbs
        | cons => rfl
      refine ⟨?_, hb, ih hs hbs⟩
      rw [hfirst]
      refine hh.congr fun p _ hp => ?_
      rw [lastAddr]
      exact put_apply_of_notMem (by omega)

end Seg

end Heap

end Koerix
