import Mathlib.Data.List.Basic
import Mathlib.Order.Basic

/-! # Keyboard decoding

`kbd_getchar` turns scan codes into characters. It skips one byte after each prefix, also when
that byte is the second prefix of an extended break code; the key of such a code then passes for
one that is pressed.
-/

namespace Koerix.Keyboard

/-- `SpecialKeys`. -/
inductive SpecialKeys
  | none | escape | backspace | tab | enter | ctrlLeft | shiftLeft | shiftRight | altLeft
  | capsLock | f1 | f2 | f3 | f4 | f5 | f6 | f7 | f8 | f9 | f10 | f11 | f12 | numLock | scrollLock

/-- The codes of the special keys follow each other from `0x80` on. -/
def key (k : SpecialKeys) : UInt8 := .ofNat (0x80 + k.ctorIdx)

def ch (c : Char) : UInt8 := .ofNat c.toNat

/-- `layout_base`; the characters that need an escape, and the backtick, by their codes. -/
def layoutBase : Vector UInt8 131 :=
  #v[
    key .none, key .f9, key .none, key .f5, key .f3, key .f1, key .f2, key .f12, key .none,
    key .f10, key .f8, key .f6, key .f4,
    key .tab, 96, key .none, key .none, key .altLeft, key .shiftLeft, key .none, key .ctrlLeft,
    ch 'q', ch '1', key .none, key .none, key .none, ch 'y', ch 's', ch 'a', ch 'w', ch '2',
    key .none,
    key .none, ch 'c', ch 'x', ch 'd', ch 'e', ch '4', ch '3', key .none, key .none, ch ' ',
    ch 'v', ch 'f',
    ch 't', ch 'r', ch '5', key .none, key .none, ch 'n', ch 'b', ch 'h', ch 'g', ch 'y', ch '6',
    key .none,
    key .none, key .none, ch 'm', ch 'j', ch 'u', ch '7', ch '8', key .none, key .none, ch ',',
    ch 'k', ch 'i',
    ch 'o', ch '0', ch '9', key .none, key .none, ch '.', ch '-', ch 'l', ch ';', ch 'p', ch 's',
    key .none,
    key .none, key .none, 39, key .none, ch 'u', ch '=', key .none, key .none, key .capsLock,
    key .shiftRight,
    10, ch '+', key .none, 92, key .none, key .none, key .none, key .none, key .none, key .none,
    key .none,
    8, key .none, key .none, ch '1', key .none, ch '4', ch '7', key .none, key .none, key .none,
    ch '0', ch '.', ch '2', ch '5', ch '6', ch '8', key .escape, key .numLock, key .f11, ch '+',
    ch '3', ch '-',
    ch '*', ch '9', key .scrollLock, key .none, key .none, key .none, key .none, key .f7]

/-- `kbd_getchar` on the bytes that the keyboard delivers: the character, and what is left. It
waits if there are no more bytes. -/
def kbdGetchar : List UInt8 → Option (UInt8 × List UInt8)
  | [] => none
  | c :: bytes =>
    if _h : c.toNat < 131 then
      let k := layoutBase[c.toNat]
      if k < 0x80 then some (k, bytes) else kbdGetchar bytes
    else if c = 0xf0 ∨ c = 0xe0 then
      match bytes with
      | [] => none
      | _ :: bytes => kbdGetchar bytes
    else some (0, bytes)

/-- The results of so many calls, as far as they return. -/
def results : ℕ → List UInt8 → List UInt8
  | 0, _ => []
  | calls + 1, bytes =>
    match kbdGetchar bytes with
    | none => []
    | some (c, bytes) => c :: results calls bytes

/-- What happens on the keyboard, with a scan code that the layout knows. -/
inductive Event
  | make (b : Fin 131)
  | break (b : Fin 131)
  | extendedMake (b : Fin 131)
  | extendedBreak (b : Fin 131)
  deriving DecidableEq

namespace Event

/-- The bytes of an event. -/
def bytes : Event → List UInt8
  | .make b => [.ofNat b]
  | .break b => [0xf0, .ofNat b]
  | .extendedMake b => [0xe0, .ofNat b]
  | .extendedBreak b => [0xe0, 0xf0, .ofNat b]

/-- The character of a key. -/
def char (b : Fin 131) : Option UInt8 :=
  if layoutBase[b] < 0x80 then some layoutBase[b] else none

/-- The character that is typed. -/
def typed : Event → Option UInt8
  | .make b => char b
  | _ => none

/-- The character that the decoder produces. -/
def produced : Event → Option UInt8
  | .make b | .extendedBreak b => char b
  | _ => none

end Event

/-- Every number of calls returns the characters that have been typed so far, and after them the
decoder is at the end of the events. -/
def Decodes (es : List Event) : Prop :=
  ∀ calls bytes, results calls (es.flatMap Event.bytes ++ bytes) =
    (es.filterMap Event.typed).take calls ++
      results (calls - (es.filterMap Event.typed).length) bytes

variable {bytes bytes' : List UInt8} {es : List Event} {e : Event}

theorem kbdGetchar_key (b : Fin 131) (bytes : List UInt8) :
    kbdGetchar (.ofNat b :: bytes) = match Event.char b with
      | some k => some (k, bytes)
      | none => kbdGetchar bytes := by
  have hb : (UInt8.ofNat b).toNat = b := by
    rw [UInt8.toNat_ofNat']
    omega
  rw [kbdGetchar.eq_def, Event.char]
  simp only [hb]
  rw [dif_pos b.isLt]
  change (if layoutBase[b] < 0x80 then _ else _) = _
  split_ifs <;> rfl

theorem kbdGetchar_skip {c : UInt8} (hc : c = 0xf0 ∨ c = 0xe0) (d : UInt8) (bytes : List UInt8) :
    kbdGetchar (c :: d :: bytes) = kbdGetchar bytes := by
  have hlarge : ¬ c.toNat < 131 := by
    obtain rfl | rfl := hc <;> decide
  rw [kbdGetchar.eq_def]
  simp only [dif_neg hlarge, if_pos hc]

theorem kbdGetchar_event (e : Event) (bytes : List UInt8) :
    kbdGetchar (e.bytes ++ bytes) = match e.produced with
      | some k => some (k, bytes)
      | none => kbdGetchar bytes := by
  cases e with
  | make b => exact kbdGetchar_key b bytes
  | «break» b => exact kbdGetchar_skip (.inl rfl) _ bytes
  | extendedMake b => exact kbdGetchar_skip (.inr rfl) _ bytes
  | extendedBreak b => exact (kbdGetchar_skip (.inr rfl) _ _).trans (kbdGetchar_key b bytes)

theorem results_congr (h : kbdGetchar bytes = kbdGetchar bytes') (calls : ℕ) :
    results calls bytes = results calls bytes' := by
  cases calls with
  | zero => rfl
  | succ calls => rw [results, results, h]

theorem results_nil (calls : ℕ) : results calls [] = [] := by
  cases calls <;> rfl

/-- The characters that so many calls return. -/
theorem results_events (es : List Event) (calls : ℕ) (bytes : List UInt8) :
    results calls (es.flatMap Event.bytes ++ bytes) = (es.filterMap Event.produced).take calls ++
      results (calls - (es.filterMap Event.produced).length) bytes := by
  induction es generalizing calls with
  | nil => simp
  | cons e es ih =>
    have hevent := kbdGetchar_event e (es.flatMap Event.bytes ++ bytes)
    rw [List.flatMap_cons, List.append_assoc]
    cases hp : e.produced with
    | none =>
      rw [hp] at hevent
      rw [results_congr hevent, ih, List.filterMap_cons_none hp]
    | some k =>
      rw [hp] at hevent
      rw [List.filterMap_cons_some hp]
      cases calls with
      | zero => simp [results]
      | succ calls =>
        rw [results, hevent, List.length_cons, Nat.add_sub_add_right, List.take_succ_cons,
          List.cons_append]
        exact congrArg (k :: ·) (ih calls)

theorem length_filterMap_typed (es : List Event) :
    (es.filterMap Event.typed).length ≤ (es.filterMap Event.produced).length ∧
      ((es.filterMap Event.produced).length ≤ (es.filterMap Event.typed).length →
        ∀ e ∈ es, e.produced = e.typed) := by
  induction es with
  | nil => exact ⟨Nat.le_refl _, nofun⟩
  | cons e es ih =>
    obtain ⟨hle, heq⟩ := ih
    by_cases hsame : e.produced = e.typed
    · cases hp : e.typed with
      | none =>
        rw [List.filterMap_cons_none hp, List.filterMap_cons_none (hsame.trans hp)]
        exact ⟨hle, fun h => List.forall_mem_cons.mpr ⟨hsame, heq h⟩⟩
      | some k =>
        rw [List.filterMap_cons_some hp, List.filterMap_cons_some (hsame.trans hp)]
        refine ⟨Nat.succ_le_succ hle, fun h => List.forall_mem_cons.mpr ⟨hsame, heq ?_⟩⟩
        exact Nat.le_of_succ_le_succ h
    · -- only an extended break can be wrong, and then it adds a character
      obtain ⟨hnone, k, hk⟩ : e.typed = none ∧ ∃ k, e.produced = some k := by
        cases e with
        | extendedBreak b => exact ⟨rfl, Option.ne_none_iff_exists'.mp hsame⟩
        | _ => exact absurd rfl hsame
      rw [List.filterMap_cons_none hnone, List.filterMap_cons_some hk, List.length_cons]
      exact ⟨by omega, fun h => by omega⟩

theorem decodes_of_layout {es : List Event}
    (h : ∀ b : Fin 131, .extendedBreak b ∈ es → 0x80 ≤ layoutBase[b]) : Decodes es := by
  intro calls bytes
  have hsame : es.filterMap Event.typed = es.filterMap Event.produced := by
    refine List.filterMap_congr fun e he => ?_
    cases e with
    | extendedBreak b =>
      exact (if_neg (UInt8.not_lt.mpr (h b he))).symm
    | _ => rfl
  rw [hsame]
  exact results_events es calls bytes

/-- A stream of events is decoded if and only if the key of every extended break is one that has
no character in the layout. -/
theorem decodes_iff (es : List Event) :
    Decodes es ↔ ∀ b : Fin 131, .extendedBreak b ∈ es → 0x80 ≤ layoutBase[b] := by
  refine ⟨fun h b hb => ?_, decodes_of_layout⟩
  have hall := h (es.filterMap Event.produced).length []
  rw [results_events, results_nil, results_nil, List.take_length, List.append_nil,
    List.append_nil] at hall
  have hlen := congrArg List.length hall
  rw [List.length_take] at hlen
  have hchar : Event.char b = none :=
    (length_filterMap_typed es).2 (hlen.trans_le (Nat.min_le_right _ _)) _ hb
  rw [Event.char] at hchar
  exact UInt8.not_lt.mp fun hlt => by rw [if_pos hlt] at hchar; cases hchar

/-- A key is pressed and released, and so is an extended one that has no character. -/
example : Decodes [.make 0x15, .break 0x15, .extendedMake 0x14, .extendedBreak 0x14] :=
  decodes_of_layout (by decide)

/-- The release of the right cursor key gives a character. -/
theorem not_forall_decodes : ¬ ∀ es, Decodes es := by
  intro h
  have hcursor := h [.extendedMake 0x74, .extendedBreak 0x74] 1 []
  revert hcursor
  decide

end Koerix.Keyboard
