import Koerix.Fs.Vectored
import Koerix.Stdio.File

/-! # Standard input

`getc`, `fread` and `getdelim` over the function that reads from a descriptor. What they deliver,
and then what is left in the buffer, are the bytes of the descriptor in order. The functions that
ask for single bytes keep to that whatever the descriptor answers; `fread` needs one that leaves
no gaps between two buffers.
-/

namespace Koerix.Stdio

/-- What is behind a stream that is read: the bytes consumed, and the calls so far. -/
structure In where
  pos : ℕ
  calls : ℕ

/-- A `read` function: the stream, what is behind it, and the destination; the destination as it
is afterwards, and the number that is returned. -/
abbrev ReadFn (ε : Type) := File → ε → List UInt8 → File × ε × List UInt8 × ℕ

/-- The bytes in front of a buffer, for what is pushed back. -/
def unget : ℕ := 8

namespace File

/-- What lies between `rpos` and `rend`. -/
def avail (f : File) : List UInt8 := (f.mem.drop f.rpos).take (f.rend - f.rpos)

/-- The buffer. -/
def buf (f : File) : List UInt8 := f.mem.drop unget

end File

/-- What `__stdio_read` makes of the answer of the descriptor, with `first` bytes in front of the
buffer: the stream, the destination, and the number that it returns. -/
def stdioReadResult (f : File) (dest : List UInt8) (first : ℕ) (cnt : ℤ) (buffers : List UInt8) :
    File × List UInt8 × ℕ :=
  let dest := buffers.take first ++ dest.drop first
  let f := { f with mem := f.mem.take unget ++ buffers.drop first }
  if cnt ≤ 0 then (if cnt = 0 then { f with eof := true } else { f with err := true }, dest, 0)
  else if cnt ≤ first then (f, dest, cnt.toNat)
  else
    let f := { f with rpos := unget, rend := unget + (cnt.toNat - first) }
    if f.bufSize = 0 then (f, dest, dest.length)
    else ({ f with rpos := f.rpos + 1 },
      dest.set (dest.length - 1) (f.mem.getD f.rpos 0), dest.length)

/-- `__stdio_read`. A call of `readv` with one buffer is a call of `read`. -/
def stdioRead (fds : ℕ → Vectored.Descriptor) (stream : ℕ → UInt8) : ReadFn In := fun f e dest =>
  let first := dest.length - (if f.bufSize = 0 then 0 else 1)
  let r := Vectored.readv (fds e.calls) (fun i => stream (e.pos + i))
    (if first = 0 then [f.buf] else [dest.take first, f.buf])
  let (f, dest, k) := stdioReadResult f dest first r.ret r.buffers.flatten
  (f, { pos := e.pos + r.consumed, calls := e.calls + 1 }, dest, k)

section

variable {ε : Type} (write : WriteFn ε) (read : ReadFn ε)

/-- `__toread`; whether it returns `EOF`. -/
def toread (f : File) (e : ε) : Option (File × ε × Bool) := do
  let f := f.orient
  let (f, e) ← if f.pending.getD [] = [] then some (f, e)
    else (write f e []).map fun r => (r.1, r.2.1)
  let f := { f with pending := none }
  if f.noRead then return ({ f with err := true }, e, true)
  else return ({ f with rpos := unget + f.bufSize, rend := unget + f.bufSize }, e, f.eof)

/-- `__uflow`; `none` stands for `EOF`. -/
def uflow (f : File) (e : ε) : Option (File × ε × Option UInt8) := do
  let (f, e, eof) ← toread write f e
  if eof then return (f, e, none)
  else
    let (f, e, dest, k) := read f e [0]
    return (f, e, if k = 1 then some (dest.getD 0 0) else none)

/-- `getc_unlocked`. -/
def getc (f : File) (e : ε) : Option (File × ε × Option UInt8) :=
  if f.rpos ≠ f.rend then
    some ({ f with rpos := f.rpos + 1 }, e, some (f.mem.getD f.rpos 0))
  else uflow write read f e

/-- The loop of `fread`: what is left of the destination. -/
def freadLoop : ℕ → File → ε → List UInt8 → Option (File × ε × List UInt8 × ℕ)
  | 0, _, _, _ => none
  | fuel + 1, f, e, dest =>
    if dest = [] then some (f, e, [], 0)
    else do
      let (f, e, eof) ← toread write f e
      let (f, e, dest, k) := if eof then (f, e, dest, 0) else read f e dest
      if k = 0 then return (f, e, dest, dest.length)
      else
        let (f, e, rest, l) ← freadLoop fuel f e (dest.drop k)
        return (f, e, dest.take k ++ rest, l)

/-- `fread`: the destination, and the number of items. -/
def fread (f : File) (e : ε) (size nmemb : ℕ) (dest : Vector UInt8 (size * nmemb)) :
    Option (File × ε × List UInt8 × ℕ) := do
  let f := f.orient
  let k := min f.avail.length (size * nmemb)
  let head := f.avail.take k
  let (f, e, rest, l) ←
    freadLoop write read (size * nmemb + 1) { f with rpos := f.rpos + k } e (dest.toList.drop k)
  return (f, e, head ++ rest,
    if l = 0 then (if size = 0 then 0 else nmemb) else (size * nmemb - l) / size)

/-- The memory of a line: the bytes stored so far, the size of the memory, and the calls of
`realloc` so far. -/
structure LineBuf where
  bytes : List UInt8
  cap : ℕ
  allocs : ℕ

/-- Memory for `k` more bytes; whether one of both calls of `realloc` has succeeded. -/
def LineBuf.grow (alloc : ℕ → ℕ → Bool) (b : LineBuf) (k : ℕ) (found : Bool) : LineBuf × Bool :=
  let need := b.bytes.length + k + 2
  let m := if !found && decide (need < (2 ^ 64 - 1) / 4) then need + need / 2 else need
  if alloc b.allocs m then ({ b with cap := m, allocs := b.allocs + 1 }, true)
  else if alloc (b.allocs + 1) need then ({ b with cap := need, allocs := b.allocs + 2 }, true)
  else ({ b with allocs := b.allocs + 2 }, false)

/-- The byte for which `memchr` looks. -/
def delimByte (delim : Int32) : UInt8 := delim.toInt8.toUInt8

/-- The loop of `getdelim`; `false` stands for `-1`. -/
def getdelimLoop (alloc : ℕ → ℕ → Bool) (delim : Int32) :
    ℕ → File → ε → LineBuf → Option (File × ε × LineBuf × Bool)
  | 0, _, _, _ => none
  | fuel + 1, f, e, b =>
    let z := f.avail.findIdx? (· = delimByte delim)
    let k := z.elim f.avail.length (· + 1)
    let (b, ok) := if b.cap ≤ b.bytes.length + k then b.grow alloc k z.isSome else (b, true)
    if ok = false then
      let k := b.cap - b.bytes.length
      some ({ f.orient with rpos := f.rpos + k, err := true }, e,
        { b with bytes := b.bytes ++ f.avail.take k }, false)
    else
      let b := { b with bytes := b.bytes ++ f.avail.take k }
      let f := { f with rpos := f.rpos + k }
      if z.isSome then some (f, e, b, true)
      else do
        let (f, e, c) ← getc write read f e
        match c with
        | none => return (f, e, b, b.bytes ≠ [] ∧ f.eof = true)
        | some c =>
          -- a byte that needs more memory is pushed back
          if b.cap ≤ b.bytes.length + 1 then
            getdelimLoop alloc delim fuel
              { f with rpos := f.rpos - 1, mem := f.mem.set (f.rpos - 1) c } e b
          else
            let b := { b with bytes := b.bytes ++ [c] }
            -- a `char`, which is signed, is compared with an `int`
            if c.toInt8.toInt32 = delim then return (f, e, b, true)
            else getdelimLoop alloc delim fuel f e b

/-- `getdelim` with memory of the given size at `*s`; zero for a null pointer. -/
def getdelim (alloc : ℕ → ℕ → Bool) (delim : Int32) (fuel : ℕ) (f : File) (e : ε) (cap : ℕ) :
    Option (File × ε × LineBuf × Bool) :=
  getdelimLoop write read alloc delim fuel f e ⟨[], cap, 0⟩

end

/-- Bytes of a stream. -/
def segment (stream : ℕ → UInt8) (a n : ℕ) : List UInt8 :=
  (List.range n).map fun i => stream (a + i)

/-- A buffered stream that is read. -/
structure Ready (f : File) : Prop where
  length : f.mem.length = unget + f.bufSize
  buffered : 0 < f.bufSize
  le : f.rpos ≤ f.rend
  fits : f.rend ≤ f.mem.length
  canRead : f.noRead = false
  idle : f.pending = none

/-- What has been delivered and what is in the buffer are the bytes consumed. -/
def Feeds (stream : ℕ → UInt8) (f : File) (e : In) (got : List UInt8) : Prop :=
  got ++ f.avail = segment stream 0 e.pos

variable {fds : ℕ → Vectored.Descriptor} {stream : ℕ → UInt8} {write : WriteFn In}
  {f f' : File} {e e' : In} {got dest dest' : List UInt8} {a k n m fuel : ℕ} {c : UInt8}

theorem segment_add (stream : ℕ → UInt8) (a n m : ℕ) :
    segment stream a (n + m) = segment stream a n ++ segment stream (a + n) m := by
  simp [segment, List.range_add, Function.comp_def, Nat.add_assoc]

@[simp] theorem length_segment (stream : ℕ → UInt8) (a n : ℕ) :
    (segment stream a n).length = n := by simp [segment]

theorem fill_eq (stream : ℕ → UInt8) (a : ℕ) (dest : List UInt8) (k : ℕ) :
    Vectored.fill (fun i => stream (a + i)) 0 dest k = segment stream a k ++ dest.drop k := by
  simp [Vectored.fill, segment]

namespace Ready

theorem length_avail (h : Ready f) : f.avail.length = f.rend - f.rpos := by
  have hle := h.le
  have hfits := h.fits
  simp only [File.avail, List.length_take, List.length_drop]
  omega

theorem avail_cons (h : Ready f) (hlt : f.rpos < f.rend) : ∃ c, f.mem[f.rpos]? = some c ∧
    f.avail = c :: { f with rpos := f.rpos + 1 : File }.avail := by
  have hfits := h.fits
  have hlen : f.rpos < f.mem.length := by omega
  refine ⟨f.mem[f.rpos], List.getElem?_eq_getElem hlen, ?_⟩
  simp only [File.avail]
  rw [List.drop_eq_getElem_cons hlen, show f.rend - f.rpos = f.rend - (f.rpos + 1) + 1 by omega,
    List.take_succ_cons]

theorem skip (h : Ready f) (hk : f.rpos + k ≤ f.rend) : Ready { f with rpos := f.rpos + k } where
  __ := h
  le := hk

theorem avail_skip (f : File) (k : ℕ) :
    ({ f with rpos := f.rpos + k } : File).avail = f.avail.drop k := by
  simp only [File.avail]
  rw [List.drop_take, List.drop_drop, Nat.sub_add_eq]

theorem pushBack (h : Ready f) (hpos : 0 < f.rpos) (c : UInt8) :
    Ready { f with rpos := f.rpos - 1, mem := f.mem.set (f.rpos - 1) c } ∧
      ({ f with rpos := f.rpos - 1, mem := f.mem.set (f.rpos - 1) c } : File).avail =
        c :: f.avail := by
  obtain ⟨hlen, hbuf, hle, hfits, hcan, hidle⟩ := h
  refine ⟨⟨by rwa [List.length_set], hbuf, by simp only; omega, by rwa [List.length_set], hcan,
    hidle⟩, ?_⟩
  simp only [File.avail]
  have hlt : f.rpos - 1 < (f.mem.set (f.rpos - 1) c).length := by
    rw [List.length_set]
    omega
  rw [List.drop_eq_getElem_cons hlt, show f.rend - (f.rpos - 1) = f.rend - f.rpos + 1 by omega,
    List.take_succ_cons, List.getElem_set_self, show f.rpos - 1 + 1 = f.rpos by omega,
    List.drop_set_of_lt (by omega)]

end Ready

/-- What a `read` function has done: it has consumed `n` bytes of the stream, and `k` of them are
in the destination. -/
structure Delivered (stream : ℕ → UInt8) (f f' : File) (e e' : In) (dest dest' : List UInt8)
    (n k : ℕ) : Prop where
  ready : Ready f'
  pos : e'.pos = e.pos + n
  size : f'.bufSize = f.bufSize
  length : dest'.length = dest.length
  le : k ≤ dest.length
  rpos : 0 < f'.rpos
  bytes : dest'.take k ++ f'.avail = segment stream e.pos n
  stop : k = 0 → n = 0 ∧ (f'.eof = true ∨ f'.err = true)
  rest : k < dest.length → f'.avail = []

theorem segment_succ (stream : ℕ → UInt8) (a n : ℕ) :
    segment stream a (n + 1) = stream a :: segment stream (a + 1) n := by
  rw [Nat.add_comm n, segment_add]
  rfl

section

variable {first : ℕ} {cnt : ℤ} {buffers tail : List UInt8}

theorem length_refill (h : Ready f) (hlen : buffers.length = first + f.bufSize) :
    (f.mem.take unget ++ buffers.drop first).length = unget + f.bufSize := by
  have hmem := h.length
  rw [List.length_append, List.length_drop, hlen, List.length_take_of_le (by omega)]
  omega

theorem drop_refill (h : Ready f) (buffers : List UInt8) (first i : ℕ) :
    (f.mem.take unget ++ buffers.drop first).drop (unget + i) = buffers.drop (first + i) := by
  have hlen : (f.mem.take unget).length = unget :=
    List.length_take_of_le (by have := h.length; omega)
  rw [List.drop_append, hlen, List.drop_eq_nil_of_le (by omega), Nat.add_sub_cancel_left,
    List.nil_append, List.drop_drop]

theorem delivered_of_stop (h : Ready f) (hrpos : f.rpos = unget + f.bufSize)
    (hlen : buffers.length = first + f.bufSize) (hfirst : first ≤ dest.length) (hcnt : cnt ≤ 0)
    (hr : stdioReadResult f dest first cnt buffers = (f', dest', k)) (hpos : e'.pos = e.pos) :
    Delivered stream f f' e e' dest dest' 0 k := by
  have hmem := length_refill h hlen
  have hle := h.le
  have hfits := h.fits
  have hlength := h.length
  rw [stdioReadResult, if_pos hcnt] at hr
  simp only [Prod.mk.injEq] at hr
  obtain ⟨rfl, rfl, rfl⟩ := hr
  have hrend : f.rend = f.rpos := by omega
  refine ⟨?_, hpos, ?_, ?_, Nat.zero_le _, ?_, ?_, fun _ => ⟨rfl, ?_⟩, fun _ => ?_⟩
  · split_ifs <;> exact ⟨hmem, h.buffered, h.le, by rw [hmem]; simp only; omega, h.canRead, h.idle⟩
  · split_ifs <;> rfl
  · rw [List.length_append, List.length_take_of_le (by omega), List.length_drop]
    omega
  · split_ifs <;> (simp only; rw [hrpos, unget]; omega)
  · split_ifs <;> simp [File.avail, segment, hrend]
  · split_ifs
    · exact .inl rfl
    · exact .inr rfl
  · split_ifs <;> simp [File.avail, hrend]

/-- The descriptor has filled the first `n` bytes of both buffers. -/
theorem delivered_of_pos (h : Ready f) (hrpos : f.rpos = unget + f.bufSize) (hdest : dest ≠ [])
    (hfirst : first = dest.length - 1) (hlen : buffers.length = first + f.bufSize) (hn : 0 < n)
    (hnle : n ≤ buffers.length) (hbytes : buffers = segment stream e.pos n ++ tail)
    (hr : stdioReadResult f dest first n buffers = (f', dest', k)) (hpos : e'.pos = e.pos + n) :
    Delivered stream f f' e e' dest dest' n k := by
  have hmem := length_refill h hlen
  have hle := h.le
  have hfits := h.fits
  have hlength := h.length
  have hbuf := h.buffered
  have hdestpos := List.length_pos_iff.mpr hdest
  have htake : (buffers.take first ++ dest.drop first).length = dest.length := by
    rw [List.length_append, List.length_take_of_le (by omega), List.length_drop]
    omega
  rw [stdioReadResult, if_neg (by omega)] at hr
  by_cases hshort : n ≤ first
  · rw [if_pos (by omega), Int.toNat_natCast] at hr
    simp only [Prod.mk.injEq] at hr
    obtain ⟨rfl, rfl, rfl⟩ := hr
    have hrend : f.rend = f.rpos := by omega
    refine ⟨⟨hmem, hbuf, h.le, by rw [hmem]; simp only; omega, h.canRead, h.idle⟩, hpos, rfl, htake,
      by omega, by simp only; rw [hrpos, unget]; omega, ?_, fun h0 => by omega,
      fun _ => by simp [File.avail, hrend]⟩
    rw [hbytes, List.take_append_of_le_length
      (by rw [List.length_take_of_le (by rw [← hbytes]; omega)]; omega), List.take_take,
      Nat.min_eq_left hshort, List.take_left' (length_segment ..)]
    simp [File.avail, hrend]
  · obtain ⟨m, rfl⟩ : ∃ m, n = first + (m + 1) := ⟨n - first - 1, by omega⟩
    rw [if_neg (by omega), Int.toNat_natCast, Nat.add_sub_cancel_left, if_neg (by simp only; omega)]
      at hr
    simp only [Prod.mk.injEq] at hr
    obtain ⟨rfl, rfl, rfl⟩ := hr
    rw [segment_add, segment_succ, List.append_assoc, List.cons_append] at hbytes
    have hbyte : (f.mem.take unget ++ buffers.drop first).getD unget 0 =
        stream (e.pos + first) := by
      have hdrop := drop_refill h buffers first 0
      rw [Nat.add_zero, Nat.add_zero] at hdrop
      rw [List.getD_eq_getElem?_getD, ← List.head?_drop, hdrop, hbytes,
        List.drop_left' (length_segment ..)]
      rfl
    have havail : (((f.mem.take unget ++ buffers.drop first).drop (unget + 1)).take
        (unget + (m + 1) - (unget + 1))) = segment stream (e.pos + first + 1) m := by
      rw [drop_refill h, ← List.drop_drop, hbytes, List.drop_left' (length_segment ..),
        List.drop_one, List.tail_cons, show unget + (m + 1) - (unget + 1) = m by omega,
        List.take_left' (length_segment ..)]
    have hset : (buffers.take first ++ dest.drop first).set (dest.length - 1)
        (stream (e.pos + first)) = segment stream e.pos first ++ [stream (e.pos + first)] := by
      obtain ⟨c, hc⟩ : ∃ c, dest.drop first = [c] := by
        refine List.length_eq_one_iff.mp ?_
        rw [List.length_drop]
        omega
      rw [hc, ← hfirst,
        List.set_append_right _ _ (Nat.le_of_eq (List.length_take_of_le (by omega))),
          List.length_take_of_le (by omega), Nat.sub_self, hbytes,
        List.take_left' (length_segment ..)]
      rfl
    rw [hlen] at hnle
    refine ⟨⟨hmem, hbuf, by simp only; omega, by rw [hmem]; simp only; omega, h.canRead, h.idle⟩,
      hpos, rfl, by rw [List.length_set, htake], Nat.le_of_eq htake, Nat.succ_pos _, ?_,
      fun h0 => by omega, fun hlt => absurd htake (Nat.ne_of_lt hlt)⟩
    simp only [File.avail]
    rw [htake, hbyte, havail, hset, List.take_of_length_le (by simp; omega), segment_add,
      segment_succ, List.append_assoc]
    rfl

end

/-- `__stdio_read` delivers what it consumes, if it asks for one byte or leaves no gap. -/
theorem stdioRead_spec (h : Ready f) (hrpos : f.rpos = unget + f.bufSize) (hdest : dest ≠ [])
    (hfds : dest.length = 1 ∨ Vectored.Gapless fds)
    (hr : stdioRead fds stream f e dest = (f', e', dest', k)) :
    ∃ n, Delivered stream f f' e e' dest dest' n k := by
  obtain ⟨first, hfirst⟩ : ∃ first, first = dest.length - 1 := ⟨_, rfl⟩
  obtain ⟨iov, hiov⟩ : ∃ iov, iov = if first = 0 then [f.buf] else [dest.take first, f.buf] :=
    ⟨_, rfl⟩
  have hbuf := h.buffered
  rw [stdioRead, if_neg (by omega : f.bufSize ≠ 0), ← hfirst, ← hiov] at hr
  simp only [Prod.mk.injEq] at hr
  obtain ⟨rfl, rfl, rfl, rfl⟩ := hr
  have hflat : iov.flatten.length = first + f.bufSize := by
    have hlen := h.length
    have hbuflen : f.buf.length = f.bufSize := by
      rw [File.buf, List.length_drop, hlen, Nat.add_sub_cancel_left]
    rw [hiov]
    split_ifs with h0
    · simp [h0, hbuflen]
    · simp only [List.flatten_cons, List.flatten_nil, List.append_nil, List.length_append,
        List.length_take, hbuflen]
      omega
  have hcont : Vectored.Contiguous (fds e.calls) false 0 0 (iov.map List.length) := by
    rcases hfds with h1 | hall
    · rw [hiov, if_pos (by omega), List.map_singleton, Vectored.Contiguous]
      cases fds e.calls 0 f.buf.length with
      | error => rfl
      | done => exact ⟨(by rintro ⟨⟩), trivial⟩
    · exact hall _ _
  obtain ⟨hlength, hneg | ⟨n, hn, hret, hcons, hfill⟩⟩ :=
    Vectored.readv_of_contiguous hcont fun i => stream (e.pos + i)
  · exact ⟨0, delivered_of_stop h hrpos (hlength.trans hflat) (by omega) (Int.le_of_lt hneg.1) rfl
      (congrArg (e.pos + ·) hneg.2)⟩
  · refine ⟨n, ?_⟩
    rcases Nat.eq_zero_or_pos n with rfl | hpos
    · exact delivered_of_stop h hrpos (hlength.trans hflat) (by omega) (Int.le_of_eq hret) rfl
        (congrArg (e.pos + ·) hcons)
    · rw [hret]
      rw [fill_eq] at hfill
      exact delivered_of_pos h hrpos hdest hfirst (hlength.trans hflat) hpos (hlength ▸ hn) hfill
        rfl (congrArg (e.pos + ·) hcons)

theorem Feeds.consume (h : Feeds stream f e got) (hnil : f.avail = []) {s : List UInt8}
    (hs : s ++ f'.avail = segment stream e.pos n) (hpos : e'.pos = e.pos + n) :
    Feeds stream f' e' (got ++ s) := by
  rw [Feeds, hnil, List.append_nil] at h
  rw [Feeds, hpos, segment_add, List.append_assoc, hs, h, Nat.zero_add]

theorem toread_spec (write : WriteFn In) (h : Ready f) (e : In) :
    ∃ f₁, toread write f e = some (f₁, e, f.eof) ∧ Ready f₁ ∧ f₁.rpos = unget + f₁.bufSize ∧
      f₁.bufSize = f.bufSize ∧ f₁.eof = f.eof ∧
      f₁.avail = [] := by
  refine ⟨{ f.orient with pending := none, rpos := unget + f.bufSize, rend := unget + f.bufSize },
    ?_, ⟨h.length, h.buffered, Nat.le_refl _, by simp [File.orient, h.length], h.canRead, rfl⟩,
    rfl, rfl, rfl, by simp [File.avail]⟩
  simp [toread, File.orient, h.idle, h.canRead]

/-- `getc` takes the next byte of the stream, whatever the descriptor answers. -/
theorem getc_spec (write : WriteFn In) (fds : ℕ → Vectored.Descriptor) (h : Ready f)
    (hfeeds : Feeds stream f e got) : ∃ f' e' r,
    getc write (stdioRead fds stream) f e = some (f', e', r) ∧ Ready f' ∧
      ((∃ c, r = some c ∧ Feeds stream f' e' (got ++ [c]) ∧ 0 < f'.rpos) ∨
        r = none ∧ f'.avail = [] ∧ Feeds stream f' e' got ∧ (f'.eof = true ∨ f'.err = true)) := by
  rw [getc]
  have hle := h.le
  by_cases hne : f.rpos ≠ f.rend
  · obtain ⟨c, hc, havail⟩ := h.avail_cons (by omega)
    rw [if_pos hne]
    refine ⟨_, _, _, rfl, h.skip (by omega), .inl ⟨c, ?_, ?_, Nat.succ_pos _⟩⟩
    · rw [List.getD_eq_getElem?_getD, hc, Option.getD_some]
    · rw [Feeds, List.append_assoc, List.singleton_append, ← havail]
      exact hfeeds
  · rw [if_neg hne, uflow]
    have hnil : f.avail = [] := List.length_eq_zero_iff.mp (by rw [h.length_avail]; omega)
    obtain ⟨f₁, htoread, h₁, hrpos, -, heof, havail⟩ := toread_spec write h e
    rw [htoread, Option.bind_eq_bind, Option.bind_some]
    have hfeeds₁ : Feeds stream f₁ e got := by
      rw [Feeds, havail]
      rwa [Feeds, hnil] at hfeeds
    cases hf : f.eof with
    | true => exact ⟨f₁, e, none, rfl, h₁, .inr ⟨rfl, havail, hfeeds₁, .inl (heof.trans hf)⟩⟩
    | false =>
      obtain ⟨⟨f₂, e₂, dest, k⟩, hr⟩ : ∃ r, r = stdioRead fds stream f₁ e [0] := ⟨_, rfl⟩
      simp only [Bool.false_eq_true, if_false, ← hr]
      obtain ⟨n, hd⟩ := stdioRead_spec h₁ hrpos (List.cons_ne_nil 0 []) (.inl rfl) hr.symm
      have hk : k ≤ 1 := hd.le
      obtain ⟨c, rfl⟩ := List.length_eq_one_iff.mp hd.length
      rcases Nat.lt_or_ge k 1 with h0 | h1
      · obtain rfl : k = 0 := by omega
        obtain ⟨rfl, hstop⟩ := hd.stop rfl
        have hfeeds₂ := hfeeds₁.consume havail (s := []) hd.bytes hd.pos
        rw [List.append_nil] at hfeeds₂
        exact ⟨f₂, e₂, none, rfl, hd.ready, .inr ⟨rfl, hd.rest Nat.zero_lt_one, hfeeds₂, hstop⟩⟩
      · obtain rfl : k = 1 := by omega
        exact ⟨f₂, e₂, some c, rfl, hd.ready,
          .inl ⟨c, rfl, hfeeds₁.consume havail hd.bytes hd.pos, hd.rpos⟩⟩

/-- The loop of `fread` fills the destination from the stream, or stops at its end or at an
error. -/
theorem freadLoop_spec (write : WriteFn In) (hfds : Vectored.Gapless fds) (h : Ready f)
    (hnil : dest ≠ [] → f.avail = []) (hfeeds : Feeds stream f e got) (hf : dest.length < fuel) :
    ∃ f' e' out l,
      freadLoop write (stdioRead fds stream) fuel f e dest = some (f', e', out, l) ∧ Ready f' ∧
        out.length = dest.length ∧ l ≤ dest.length ∧
        Feeds stream f' e' (got ++ out.take (dest.length - l)) ∧
        (l ≠ 0 → f'.eof = true ∨ f'.err = true) := by
  induction fuel generalizing f e got dest with
  | zero => omega
  | succ fuel ih =>
    rw [freadLoop]
    by_cases hdest : dest = []
    · subst hdest
      exact ⟨f, e, [], 0, if_pos rfl, h, rfl, Nat.le_refl _, by simpa using hfeeds,
        fun h0 => absurd rfl h0⟩
    · obtain ⟨f₁, htoread, h₁, hrpos, -, heof, havail⟩ := toread_spec write h e
      have hfeeds₁ : Feeds stream f₁ e got := by
        rw [Feeds, havail]
        rwa [Feeds, hnil hdest] at hfeeds
      rw [if_neg hdest, htoread, Option.bind_eq_bind, Option.bind_some]
      cases hfe : f.eof with
      | true =>
        refine ⟨f₁, e, dest, dest.length, rfl, h₁, rfl, Nat.le_refl _, ?_,
          fun _ => .inl (heof.trans hfe)⟩
        simpa using hfeeds₁
      | false =>
        obtain ⟨⟨f₂, e₂, dest₂, k⟩, hr⟩ : ∃ r, r = stdioRead fds stream f₁ e dest := ⟨_, rfl⟩
        simp only [Bool.false_eq_true, if_false, ← hr]
        obtain ⟨n, hd⟩ := stdioRead_spec h₁ hrpos hdest (.inr hfds) hr.symm
        have hlen := hd.length
        have hk := hd.le
        have hpos := List.length_pos_iff.mpr hdest
        have hfeeds₂ := hfeeds₁.consume havail hd.bytes hd.pos
        by_cases hk0 : k = 0
        · rw [if_pos hk0]
          refine ⟨f₂, e₂, dest₂, dest₂.length, rfl, hd.ready, hlen, hlen ▸ Nat.le_refl _, ?_,
            fun _ => (hd.stop hk0).2⟩
          rw [hlen, Nat.sub_self]
          rwa [hk0] at hfeeds₂
        · rw [if_neg hk0]
          have hout : (dest₂.take k).length = k := List.length_take_of_le (by omega)
          have hnil₂ : dest₂.drop k ≠ [] → f₂.avail = [] := by
            intro hne
            rw [Ne, List.drop_eq_nil_iff] at hne
            exact hd.rest (by omega)
          obtain ⟨f', e', out, l, hrec, hready, hoout, hl, hfeeds', hstop⟩ :=
            ih hd.ready hnil₂ hfeeds₂ (by rw [List.length_drop]; omega)
          rw [List.length_drop] at hoout hl hfeeds'
          refine ⟨f', e', dest₂.take k ++ out, l, by rw [hrec]; rfl, hready, ?_, by omega, ?_,
            hstop⟩
          · rw [List.length_append, hout]
            omega
          · rw [List.take_append, hout, List.take_take, Nat.min_eq_right (by omega),
              ← List.append_assoc, show dest.length - l - k = dest₂.length - k - l by omega]
            exact hfeeds'

/-- `fread` takes the next bytes of the stream: as many as it is asked for, or fewer at the end of
the file or after an error. -/
theorem fread_spec (write : WriteFn In) (hfds : Vectored.Gapless fds) (h : Ready f)
    (hfeeds : Feeds stream f e got) (size nmemb : ℕ) (dest : Vector UInt8 (size * nmemb)) :
    ∃ f' e' out r l,
      fread write (stdioRead fds stream) f e size nmemb dest = some (f', e', out, r) ∧ Ready f' ∧
        out.length = size * nmemb ∧ l ≤ size * nmemb ∧
        Feeds stream f' e' (got ++ out.take (size * nmemb - l)) ∧
        r = (if l = 0 then (if size = 0 then 0 else nmemb) else (size * nmemb - l) / size) ∧
        (l ≠ 0 → f'.eof = true ∨ f'.err = true) := by
  have hready : Ready f.orient :=
    ⟨h.length, h.buffered, h.le, h.fits, h.canRead, h.idle⟩
  obtain ⟨k, hk⟩ : ∃ k, k = min f.avail.length (size * nmemb) := ⟨_, rfl⟩
  have hkle : f.rpos + k ≤ f.rend := by
    have hle := h.le
    rw [h.length_avail] at hk
    omega
  have hskip : ({ f.orient with rpos := f.rpos + k } : File).avail = f.avail.drop k :=
    Ready.avail_skip f k
  have hnil : dest.toList.drop k ≠ [] →
      ({ f.orient with rpos := f.rpos + k } : File).avail = [] := by
    intro hne
    rw [hskip]
    rw [Ne, List.drop_eq_nil_iff, Vector.length_toList] at hne
    exact List.drop_eq_nil_of_le (by omega)
  have hfeeds' : Feeds stream { f.orient with rpos := f.rpos + k } e (got ++ f.avail.take k) := by
    rw [Feeds, hskip, List.append_assoc, List.take_append_drop]
    exact hfeeds
  have hlt : (dest.toList.drop k).length < size * nmemb + 1 := by
    rw [List.length_drop, Vector.length_toList]
    omega
  have hhead : (f.avail.take k).length = k := List.length_take_of_le (by omega)
  obtain ⟨f', e', out, l, hloop, hready', hlen, hl, hout, hstop⟩ :=
    freadLoop_spec write hfds (hready.skip hkle) hnil hfeeds' hlt
  rw [List.length_drop, Vector.length_toList] at hlen hl hout
  refine ⟨f', e', f.avail.take k ++ out, _, l, ?_, hready', ?_, by omega, ?_, rfl, hstop⟩
  · rw [fread, show f.orient.avail = f.avail by rfl, ← hk]
    exact Option.bind_eq_some_iff.mpr ⟨_, hloop, rfl⟩
  · rw [List.length_append, hhead]
    omega
  · rw [List.take_append, hhead, List.take_take, Nat.min_eq_right (by omega), ← List.append_assoc,
      show size * nmemb - l - k = size * nmemb - k - l by omega]
    exact hout

theorem grow_spec {alloc : ℕ → ℕ → Bool} {b b' : LineBuf} {z ok : Bool}
    (hr : b.grow alloc k z = (b', ok)) : b'.bytes = b.bytes ∧
      (ok = true → b.bytes.length + k + 2 ≤ b'.cap) ∧ (ok = false → b'.cap = b.cap) := by
  simp only [LineBuf.grow] at hr
  split_ifs at hr <;>
    (simp only [Prod.mk.injEq] at hr; obtain ⟨rfl, rfl⟩ := hr) <;>
    refine ⟨rfl, ?_, ?_⟩ <;> simp

theorem room_spec {alloc : ℕ → ℕ → Bool} {b b' : LineBuf} {z ok : Bool}
    (hr : (b', ok) = if b.cap ≤ b.bytes.length + k then b.grow alloc k z else (b, true)) :
    b'.bytes = b.bytes ∧ (ok = true → b.bytes.length + k < b'.cap) ∧
      (ok = false → b'.cap = b.cap ∧ b.cap ≤ b.bytes.length + k) := by
  split_ifs at hr with hfit
  · obtain ⟨hb, hok, hfail⟩ := grow_spec hr.symm
    exact ⟨hb, fun h1 => by have := hok h1; omega, fun h0 => ⟨hfail h0, hfit⟩⟩
  · obtain ⟨rfl, rfl⟩ := Prod.mk.inj hr
    exact ⟨rfl, fun _ => by omega, nofun⟩

theorem take_findIdx (s : List UInt8) (delim : UInt8) :
    (∃ j, s.findIdx? (· = delim) = some j ∧ j < s.length ∧
        s.take (j + 1) = s.take j ++ [delim] ∧ delim ∉ s.take j) ∨
      s.findIdx? (· = delim) = none ∧ delim ∉ s := by
  cases hz : s.findIdx? (· = delim) with
  | none =>
    rw [List.findIdx?_eq_none_iff] at hz
    exact .inr ⟨rfl, fun hmem => by simpa using hz delim hmem⟩
  | some j =>
    obtain ⟨hj, hdelim, hbefore⟩ := List.findIdx?_eq_some_iff_getElem.mp hz
    rw [decide_eq_true_iff] at hdelim
    refine .inl ⟨j, rfl, hj, ?_, fun hmem => ?_⟩
    · rw [List.take_succ_eq_append_getElem hj, hdelim]
    · obtain ⟨i, hi, hget⟩ := List.mem_take_iff_getElem.mp hmem
      exact hbefore i (by omega) (by simpa using hget)

/-- The delimiter is the value of a `char`. The one of another value is seen in the buffer only, and
not where `getc` fetches it. -/
def IsChar (delim : Int32) : Prop := delim.toInt8.toInt32 = delim

instance (delim : Int32) : Decidable (IsChar delim) := inferInstanceAs (Decidable (_ = _))

theorem eq_delim_iff {delim : Int32} {c : UInt8} (h : IsChar delim) :
    c.toInt8.toInt32 = delim ↔ c = delimByte delim := by
  constructor
  · rintro rfl
    rw [delimByte, Int8.toInt8_toInt32, UInt8.toUInt8_toInt8]
  · rintro rfl
    rw [delimByte, Int8.toInt8_toUInt8]
    exact h

/-- What `getdelim` has stored: a line with its end, or what is left of the stream; in case of an
error, some bytes of the line. -/
structure LineRead (delim : Int32) (f' : File) (b' : LineBuf) (ok : Bool) : Prop where
  le : b'.bytes.length ≤ b'.cap
  line : ok = true → b'.bytes.length < b'.cap ∧
    ((∃ w, b'.bytes = w ++ [delimByte delim] ∧ (IsChar delim → delimByte delim ∉ w)) ∨
      (IsChar delim → delimByte delim ∉ b'.bytes) ∧ b'.bytes ≠ [] ∧ f'.avail = [] ∧ f'.eof = true)
  failed : ok = false → f'.err = true ∨ b'.bytes = [] ∧ f'.avail = [] ∧ f'.eof = true

/-- One round of `getdelim` returns, or goes on behind what it has copied. -/
theorem getdelimLoop_succ {alloc : ℕ → ℕ → Bool} {delim : Int32} {b : LineBuf}
    {r : Option (File × In × LineBuf × Bool)}
    (h : Ready f) (hfeeds : Feeds stream f e (got ++ b.bytes)) (hle : b.bytes.length ≤ b.cap)
    (hno : IsChar delim → delimByte delim ∉ b.bytes)
    (hr : getdelimLoop write (stdioRead fds stream) alloc delim (fuel + 1) f e b = r) :
    (∃ f' e' b' ok, r = some (f', e', b', ok) ∧ Ready f' ∧ Feeds stream f' e' (got ++ b'.bytes) ∧
      LineRead delim f' b' ok) ∨
    ∃ f' e' b', r = getdelimLoop write (stdioRead fds stream) alloc delim fuel f' e' b' ∧
      Ready f' ∧ Feeds stream f' e' (got ++ b'.bytes) ∧ b'.bytes.length ≤ b'.cap ∧
      (IsChar delim → delimByte delim ∉ b'.bytes) ∧ (b.bytes.length < b'.bytes.length ∨
        b'.bytes.length = b.bytes.length ∧ f.avail = [] ∧ f'.avail ≠ []) := by
  rw [getdelimLoop] at hr
  obtain ⟨z, hz⟩ : ∃ z, z = f.avail.findIdx? (· = delimByte delim) := ⟨_, rfl⟩
  obtain ⟨k, hk⟩ : ∃ k, k = z.elim f.avail.length (· + 1) := ⟨_, rfl⟩
  have hkle : k ≤ f.avail.length := by
    obtain ⟨j, hj, hlt, -⟩ | ⟨hnone, -⟩ := take_findIdx f.avail (delimByte delim)
    · rw [hk, hz, hj]
      exact hlt
    · rw [hk, hz, hnone]
      exact Nat.le_refl _
  have hskip : ∀ {n}, n ≤ f.avail.length → f.rpos + n ≤ f.rend := by
    intro n hn
    have hrpos := h.le
    rw [h.length_avail] at hn
    omega
  -- what has been copied belongs to the line
  have hcopy : ∀ n, Feeds stream { f with rpos := f.rpos + n } e
      (got ++ (b.bytes ++ f.avail.take n)) := by
    intro n
    rw [Feeds, Ready.avail_skip, ← List.append_assoc, List.append_assoc,
      List.take_append_drop]
    exact hfeeds
  simp only [← hz, ← hk] at hr
  obtain ⟨⟨b₁, ok₁⟩, hgrow⟩ : ∃ r, r = if b.cap ≤ b.bytes.length + k then
    b.grow alloc k z.isSome else (b, true) := ⟨_, rfl⟩
  rw [← hgrow] at hr
  obtain ⟨hbytes, hroom, hfull⟩ := room_spec hgrow
  cases ok₁ with
  | false =>
    obtain ⟨hcap, hfit⟩ := hfull rfl
    simp only [if_true, hbytes, hcap] at hr
    obtain ⟨n, hn⟩ : ∃ n, n = b.cap - b.bytes.length := ⟨_, rfl⟩
    rw [← hn] at hr
    have hnle : n ≤ f.avail.length := by omega
    refine .inl ⟨_, _, _, _, hr.symm, ⟨h.length, h.buffered, hskip hnle, h.fits, h.canRead,
      h.idle⟩, hcopy n, ?_, nofun, fun _ => .inl rfl⟩
    simp only [List.length_append, List.length_take_of_le hnle]
    omega
  | true =>
    have hcap := hroom rfl
    simp only [Bool.true_eq_false, if_false, hbytes] at hr
    have hlen : (b.bytes ++ f.avail.take k).length = b.bytes.length + k := by
      rw [List.length_append, List.length_take_of_le hkle]
    obtain ⟨j, hj, hlt, htake, hnot⟩ | ⟨hnone, hnot⟩ :=
      take_findIdx f.avail (delimByte delim)
    · rw [← hz] at hj
      obtain rfl : k = j + 1 := by rw [hk, hj]; rfl
      simp only [hj, Option.isSome_some, if_true] at hr
      refine .inl ⟨_, _, _, _, hr.symm, h.skip (hskip hkle), hcopy _, hlen ▸ Nat.le_of_lt hcap,
        fun _ => ⟨hlen ▸ hcap, .inl ⟨b.bytes ++ f.avail.take j, ?_, ?_⟩⟩, nofun⟩
      · rw [htake, List.append_assoc]
      · intro hchar
        rw [List.mem_append, not_or]
        exact ⟨hno hchar, hnot⟩
    · rw [← hz] at hnone
      obtain rfl : k = f.avail.length := by rw [hk, hnone]; rfl
      rw [List.take_length] at hr hlen
      simp only [hnone, Option.isSome_none, Bool.false_eq_true, if_false] at hr
      have hready := h.skip (hskip hkle)
      have hfeeds₁ := hcopy f.avail.length
      rw [List.take_length] at hfeeds₁
      have hno₁ : IsChar delim → delimByte delim ∉ b.bytes ++ f.avail := by
        intro hchar
        rw [List.mem_append, not_or]
        exact ⟨hno hchar, hnot⟩
      obtain ⟨f₂, e₂, c, hgetc, hready₂, hc⟩ := getc_spec write fds hready hfeeds₁
      rw [hgetc, Option.bind_eq_bind, Option.bind_some] at hr
      obtain ⟨c, rfl, hfeeds₂, hrpos⟩ | ⟨rfl, havail, hfeeds₂, hstop⟩ := hc
      · simp only [hlen] at hr
        rw [List.append_assoc] at hfeeds₂
        split_ifs at hr with hfull hdelim
        · obtain ⟨hpush, hpushed⟩ := hready₂.pushBack hrpos c
          refine .inr ⟨_, _, _, hr.symm, hpush, ?_, hlen ▸ Nat.le_of_lt hcap, hno₁, ?_⟩
          · rw [Feeds, hpushed]
            rw [Feeds] at hfeeds₂
            simpa using hfeeds₂
          · rw [hlen, hpushed]
            rcases Nat.eq_zero_or_pos f.avail.length with h0 | hpos
            · exact .inr ⟨by omega, List.length_eq_zero_iff.mp h0, List.cons_ne_nil _ _⟩
            · exact .inl (by omega)
        · have hc : c = delimByte delim := by
            rw [← hdelim, delimByte, Int8.toInt8_toInt32, UInt8.toUInt8_toInt8]
          have hlen₂ : (b.bytes ++ f.avail ++ [c]).length < b₁.cap := by
            rw [List.length_append, hlen, List.length_singleton]
            omega
          exact .inl ⟨_, _, _, _, hr.symm, hready₂, hfeeds₂, Nat.le_of_lt hlen₂,
            fun _ => ⟨hlen₂, .inl ⟨_, by rw [← hc], hno₁⟩⟩, nofun⟩
        · refine .inr ⟨_, _, _, hr.symm, hready₂, hfeeds₂, ?_, ?_, .inl ?_⟩
          · rw [List.length_append, hlen, List.length_singleton]
            exact Nat.le_of_lt (Nat.lt_of_not_le hfull)
          · intro hchar
            rw [List.mem_append, not_or]
            exact ⟨hno₁ hchar, fun hmem =>
              hdelim ((eq_delim_iff hchar).mpr (List.mem_singleton.mp hmem).symm)⟩
          · rw [List.length_append, hlen, List.length_singleton]
            omega
      · refine .inl ⟨_, _, _, _, hr.symm, hready₂, hfeeds₂, hlen ▸ Nat.le_of_lt hcap,
          fun hok => ⟨hlen ▸ hcap, .inr ?_⟩, fun hok => ?_⟩
        · obtain ⟨hne, heof⟩ := of_decide_eq_true hok
          exact ⟨hno₁, hne, havail, heof⟩
        · have hor := not_and_or.mp (of_decide_eq_false hok)
          rcases hstop with heof | herr
          · rcases hor with hnil | hneof
            · exact .inr ⟨not_not.mp hnil, havail, heof⟩
            · exact absurd heof hneof
          · exact .inl herr

theorem getdelimLoop_spec {alloc : ℕ → ℕ → Bool} {delim : Int32} {b b' : LineBuf} {ok : Bool}
    (h : Ready f) (hfeeds : Feeds stream f e (got ++ b.bytes)) (hle : b.bytes.length ≤ b.cap)
    (hno : IsChar delim → delimByte delim ∉ b.bytes)
    (hr : getdelimLoop write (stdioRead fds stream) alloc delim fuel f e b =
      some (f', e', b', ok)) :
    Ready f' ∧ Feeds stream f' e' (got ++ b'.bytes) ∧ LineRead delim f' b' ok := by
  induction fuel generalizing f e b with
  | zero => exact absurd hr nofun
  | succ fuel ih =>
    obtain ⟨f₁, e₁, b₁, ok₁, heq, hready, hfeeds₁, hline⟩ |
      ⟨f₁, e₁, b₁, heq, hready, hfeeds₁, hle₁, hno₁, -⟩ := getdelimLoop_succ h hfeeds hle hno hr
    · simp only [Option.some.injEq, Prod.mk.injEq] at heq
      obtain ⟨rfl, rfl, rfl, rfl⟩ := heq
      exact ⟨hready, hfeeds₁, hline⟩
    · exact ih hready hfeeds₁ hle₁ hno₁ heq.symm

theorem Feeds.length_le {l : List UInt8} {d : ℕ} (h : Feeds stream f e (got ++ l))
    (hno : stream d ∉ l) (hd : got.length ≤ d) : (got ++ l).length ≤ d := by
  by_contra hlt
  rw [List.length_append, Nat.not_le] at hlt
  have hget : (got ++ l ++ f.avail)[d]? = some (stream d) := by
    have hlen := congrArg List.length h
    rw [List.length_append, List.length_append, length_segment] at hlen
    rw [h, segment, List.getElem?_map, List.getElem?_range (by omega), Option.map_some,
      Nat.zero_add]
  rw [List.append_assoc, List.getElem?_append_right hd,
    List.getElem?_append_left (by omega)] at hget
  exact hno (List.mem_of_getElem? hget)

/-- A call on a stream that is read. -/
inductive Request
  | getc
  | fread (size nmemb : ℕ) (dest : Vector UInt8 (size * nmemb))
  | getdelim (alloc : ℕ → ℕ → Bool) (delim : Int32) (cap : ℕ)

/-- What a call returns. -/
inductive Reply
  | byte (c : Option UInt8)
  | items (dest : List UInt8) (n : ℕ)
  | line (b : LineBuf) (ok : Bool)

/-- `stdin`, with the position of its descriptor. -/
def stdinStart : File × In :=
  ({ err := false, eof := false, noRead := false, noWrite := true, svb := false, mode := 0,
     bufSize := 1024, lbf := none, pending := none, mem := List.replicate (unget + 1024) 0,
     rpos := 0, rend := 0 }, ⟨0, 0⟩)

/-- Calls on standard input, which has no `write` function. -/
def stdinStep (fds : ℕ → Vectored.Descriptor) (stream : ℕ → UInt8) (fuel : ℕ) :
    File × In → Request → Option ((File × In) × Reply)
  | (f, e), .getc => do
    let (f, e, c) ← getc (fun _ _ _ => none) (stdioRead fds stream) f e
    return ((f, e), .byte c)
  | (f, e), .fread size nmemb dest => do
    let (f, e, out, n) ← fread (fun _ _ _ => none) (stdioRead fds stream) f e size nmemb dest
    return ((f, e), .items out n)
  | (f, e), .getdelim alloc delim cap => do
    let (f, e, b, ok) ←
      getdelim (fun _ _ _ => none) (stdioRead fds stream) alloc delim fuel f e cap
    return ((f, e), .line b ok)

/-- What a call has taken from the stream: the byte that it returns, the first bytes of the
destination, or the line. Less than it was asked for is taken at the end of the file or after an
error only. -/
inductive Takes (f : File) : Request → Reply → List UInt8 → Prop
  | byte (c : UInt8) : Takes f .getc (.byte (some c)) [c]
  | nothing (hstop : f.eof = true ∨ f.err = true) : Takes f .getc (.byte none) []
  | items {size nmemb : ℕ} {dest : Vector UInt8 (size * nmemb)} {out : List UInt8} {k n : ℕ}
      (length : out.length = size * nmemb) (le : k ≤ size * nmemb)
      (count : n = if k = size * nmemb then (if size = 0 then 0 else nmemb) else k / size)
      (stop : k < size * nmemb → f.eof = true ∨ f.err = true) :
      Takes f (.fread size nmemb dest) (.items out n) (out.take k)
  | line {alloc : ℕ → ℕ → Bool} {delim : Int32} {cap : ℕ} {b : LineBuf} {ok : Bool}
      (h : LineRead delim f b ok) : Takes f (.getdelim alloc delim cap) (.line b ok) b.bytes

/-- Each call of a run takes its part of `got`. -/
def Served (fds : ℕ → Vectored.Descriptor) (stream : ℕ → UInt8) (fuel : ℕ) :
    File × In → List Request → List UInt8 → Prop
  | _, [], got => got = []
  | s, r :: requests, got => ∃ s' p l got', stdinStep fds stream fuel s r = some (s', p) ∧
    Takes s'.1 r p l ∧ got = l ++ got' ∧ Served fds stream fuel s' requests got'

theorem ready_stdinStart : Ready stdinStart.1 where
  length := List.length_replicate
  buffered := by decide
  le := Nat.le_refl 0
  fits := Nat.zero_le _
  canRead := rfl
  idle := rfl

theorem feeds_stdinStart : Feeds stream stdinStart.1 stdinStart.2 [] := rfl

/-- A call on standard input takes the next bytes of the stream. -/
theorem stdinStep_spec {s s' : File × In} {r : Request} {p : Reply}
    (hfds : Vectored.Gapless fds ∨ ∀ size nmemb dest, r ≠ .fread size nmemb dest)
    (h : Ready s.1) (hfeeds : Feeds stream s.1 s.2 got)
    (hr : stdinStep fds stream fuel s r = some (s', p)) :
    ∃ l, Takes s'.1 r p l ∧ Ready s'.1 ∧ Feeds stream s'.1 s'.2 (got ++ l) := by
  obtain ⟨f, e⟩ := s
  cases r with
  | getc =>
    obtain ⟨f', e', c, hgetc, hready, hc⟩ := getc_spec (fun _ _ _ => none) fds h hfeeds
    rw [stdinStep, hgetc] at hr
    simp only [Option.bind_eq_bind, Option.bind_some, Option.pure_def, Option.some.injEq,
      Prod.mk.injEq] at hr
    obtain ⟨rfl, rfl⟩ := hr
    obtain ⟨c, rfl, hfeeds', -⟩ | ⟨rfl, -, hfeeds', hstop⟩ := hc
    · exact ⟨[c], .byte c, hready, hfeeds'⟩
    · exact ⟨[], .nothing hstop, hready, by rwa [List.append_nil]⟩
  | fread size nmemb dest =>
    have hgap : Vectored.Gapless fds := hfds.resolve_right fun hne => hne size nmemb dest rfl
    obtain ⟨f', e', out, n, k, hfread, hready, hlen, hk, hfeeds', hn, hstop⟩ :=
      fread_spec (fun _ _ _ => none) hgap h hfeeds size nmemb dest
    rw [stdinStep, hfread] at hr
    simp only [Option.bind_eq_bind, Option.bind_some, Option.pure_def, Option.some.injEq,
      Prod.mk.injEq] at hr
    obtain ⟨rfl, rfl⟩ := hr
    refine ⟨_, .items hlen (Nat.sub_le _ k) ?_ fun hlt => hstop (by omega), hready, hfeeds'⟩
    rw [hn]
    by_cases h0 : k = 0
    · rw [if_pos h0, h0, Nat.sub_zero, if_pos (rfl : size * nmemb = size * nmemb)]
    · rw [if_neg h0, if_neg (by omega : ¬size * nmemb - k = size * nmemb)]
  | getdelim alloc delim cap =>
    rw [stdinStep, Option.bind_eq_bind, Option.bind_eq_some_iff] at hr
    obtain ⟨⟨f', e', b, ok⟩, hline, hr⟩ := hr
    simp only [Option.pure_def, Option.some.injEq, Prod.mk.injEq] at hr
    obtain ⟨rfl, rfl⟩ := hr
    obtain ⟨hready, hfeeds', hread⟩ := getdelimLoop_spec h (b := ⟨[], cap, 0⟩)
      (by rwa [List.append_nil]) (Nat.zero_le _) (fun _ => List.not_mem_nil) hline
    exact ⟨_, .line hread, hready, hfeeds'⟩

/-- What a run of calls has taken. -/
theorem run_served {s s' : File × In} {requests : List Request} {replies : List Reply}
    (hfds : Vectored.Gapless fds ∨
      ∀ r ∈ requests, ∀ size nmemb dest, r ≠ .fread size nmemb dest)
    (h : Ready s.1) (hfeeds : Feeds stream s.1 s.2 got)
    (hr : Run.outputs (stdinStep fds stream fuel) s requests = some (s', replies)) :
    ∃ l, Served fds stream fuel s requests l ∧ Ready s'.1 ∧
      Feeds stream s'.1 s'.2 (got ++ l) := by
  induction requests generalizing s got replies with
  | nil =>
    simp only [Run.outputs, Option.some.injEq, Prod.mk.injEq] at hr
    obtain ⟨rfl, rfl⟩ := hr
    exact ⟨[], rfl, h, by rwa [List.append_nil]⟩
  | cons r requests ih =>
    obtain ⟨s₁, p, ps, hstep, hrest, rfl⟩ := Run.outputs_cons_eq_some hr
    obtain ⟨l, htakes, hready, hfeeds₁⟩ :=
      stdinStep_spec (hfds.imp_right fun hne => hne r List.mem_cons_self) h hfeeds hstep
    obtain ⟨l', hserved, hready', hfeeds'⟩ :=
      ih (hfds.imp_right fun hne r' hr' => hne r' (List.mem_cons_of_mem _ hr')) hready hfeeds₁
        hrest
    exact ⟨l ++ l', ⟨s₁, p, l, l', hstep, htakes, rfl, hserved⟩, hready',
      by rwa [← List.append_assoc]⟩

/-- Standard input delivers the stream. In every run of `getc`, `fread` and `getdelim` the calls
take consecutive bytes of it, and what is in the buffer follows them: nothing is lost, repeated or
exchanged. Without `fread` this holds for every descriptor, with it for those that leave no
gaps. -/
theorem stdin_delivers_stream {requests : List Request} {replies : List Reply}
    (hfds : Vectored.Gapless fds ∨
      ∀ r ∈ requests, ∀ size nmemb dest, r ≠ .fread size nmemb dest)
    (hr : Run.outputs (stdinStep fds stream fuel) stdinStart requests = some ((f, e), replies)) :
    ∃ got, Served fds stream fuel stdinStart requests got ∧
      got ++ f.avail = segment stream 0 e.pos := by
  obtain ⟨got, hserved, -, hfeeds⟩ := run_served hfds ready_stdinStart feeds_stdinStart hr
  exact ⟨got, hserved, hfeeds⟩

/-- A descriptor that delivers at most five bytes in a call. -/
def fiveBytes : ℕ → Vectored.Descriptor := fun _ _ len => .done ⟨min 5 len, by omega⟩

/-- A byte and a line, over three calls of `read`. -/
def byteAndLine : List Request := [.getc, .getdelim (fun _ _ => true) 10 0]

theorem byteAndLine_returns : ∃ f e replies, Run.outputs
    (stdinStep fiveBytes UInt8.ofNat 20) stdinStart byteAndLine = some ((f, e), replies) := by
  have h : (Run.outputs (stdinStep fiveBytes UInt8.ofNat 20) stdinStart byteAndLine).isSome := by
    decide +kernel
  obtain ⟨⟨⟨f, e⟩, replies⟩, hr⟩ := Option.isSome_iff_exists.mp h
  exact ⟨f, e, replies, hr⟩

theorem noFread_byteAndLine : ∀ r ∈ byteAndLine, ∀ size nmemb dest,
    r ≠ .fread size nmemb dest := by
  simp [byteAndLine]

theorem stdin_delivers_stream_byteAndLine : ∃ (f : File) (e : In) (got : List UInt8),
    Served fiveBytes UInt8.ofNat 20 stdinStart byteAndLine got ∧
      got ++ f.avail = segment UInt8.ofNat 0 e.pos := by
  obtain ⟨f, e, _, hr⟩ := byteAndLine_returns
  exact ⟨f, e, stdin_delivers_stream (.inr noFread_byteAndLine) hr⟩

end Koerix.Stdio
