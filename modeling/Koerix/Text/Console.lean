import Mathlib.Algebra.Group.Nat.Defs
import Koerix.Lib.Run

/-! # The text console

`term_puts` moves a cursor and draws a character at it. The cursor goes to the next line at the
end of a line, but nothing keeps it from going below the last one, and a backspace draws one
column to the left of it also where there is none.
-/

namespace Koerix

/-- The framebuffer in pixels, and the size of a character. -/
structure Screen where
  fbWidth : UInt64
  fbHeight : UInt64
  fontWidth : UInt32
  fontHeight : UInt32

/-- `pos_x` and `pos_y`. -/
structure Cursor where
  posX : UInt64
  posY : UInt64
  deriving DecidableEq

namespace Screen

def termWidth (scr : Screen) : UInt64 := scr.fbWidth / scr.fontWidth.toUInt64

def termHeight (scr : Screen) : UInt64 := scr.fbHeight / scr.fontHeight.toUInt64

/-- Where the cursor stands when `stdoutThread` starts. -/
def start : Cursor := ⟨0, 3⟩

/-- The end of the loop body in `term_puts`: a call of `fb_putc`, and the cursor moves on. -/
def draw (scr : Screen) (s : Cursor) : Cursor × Option Cursor :=
  let x := s.posX + 1
  if x = scr.termWidth then (⟨0, s.posY + 1⟩, some s) else (⟨x, s.posY⟩, some s)

/-- The loop body of `term_puts`: the cursor, and where it stood in the call of `fb_putc`. -/
def putChar (scr : Screen) (s : Cursor) (c : UInt8) : Cursor × Option Cursor :=
  if c = 10 ∨ c = 13 then (⟨0, s.posY + 1⟩, none)
  else if c = 8 then scr.draw ⟨s.posX - 1, s.posY⟩
  else scr.draw s

/-- `term_puts`. -/
def termPuts (scr : Screen) : Cursor → List UInt8 → Cursor × List Cursor
  | s, [] => (s, [])
  | s, c :: str =>
    let r := scr.putChar s c
    let rest := termPuts scr r.1 str
    (rest.1, r.2.toList ++ rest.2)

/-- Calls of `term_puts`, one after the other. -/
def putTexts (scr : Screen) : Cursor → List (List UInt8) → Cursor × List Cursor
  | s, [] => (s, [])
  | s, str :: texts =>
    let r := scr.termPuts s str
    let rest := putTexts scr r.1 texts
    (rest.1, r.2 ++ rest.2)

/-- The pixels that `fb_putc` writes. -/
def pixels (scr : Screen) (s : Cursor) : List (UInt64 × UInt64) :=
  (List.range scr.fontHeight.toNat).flatMap fun i => (List.range scr.fontWidth.toNat).map fun j =>
    (s.posX * scr.fontWidth.toUInt64 + .ofNat j, s.posY * scr.fontHeight.toUInt64 + .ofNat i)

/-- The cursor is on the screen. -/
def Inside (scr : Screen) (s : Cursor) : Prop := s.posX < scr.termWidth ∧ s.posY < scr.termHeight

/-- What has been put out: the column behind it, and the line ends and wraps in it. -/
structure Written where
  column : ℕ
  lines : ℕ

/-- One more character. A backspace draws to its left, and ends where it began. -/
def write (scr : Screen) (t : Written) (c : UInt8) : Written :=
  if c = 10 ∨ c = 13 then ⟨0, t.lines + 1⟩
  else if c = 8 then t
  else if t.column + 1 = scr.termWidth.toNat then ⟨0, t.lines + 1⟩
  else ⟨t.column + 1, t.lines⟩

/-- The character ends the line, or there have been fewer line ends and wraps than lines below the
first one, and it is no backspace at the beginning of a line. `pos_y` has 64 bits. -/
def Fits (scr : Screen) (t : Written) (c : UInt8) : Prop :=
  c = 10 ∨ c = 13 ∨ (3 + t.lines) % 2 ^ 64 < scr.termHeight.toNat ∧ (c = 8 → t.column ≠ 0)

instance (scr : Screen) (s : Cursor) : Decidable (scr.Inside s) :=
  inferInstanceAs (Decidable (_ ∧ _))

instance (scr : Screen) (t : Written) (c : UInt8) : Decidable (scr.Fits t c) :=
  inferInstanceAs (Decidable (_ ∨ _))

variable {scr : Screen} {s : Cursor} {t : Written} {c : UInt8}

theorem termPuts_append (s : Cursor) (str str' : List UInt8) :
    scr.termPuts s (str ++ str') = ((scr.termPuts (scr.termPuts s str).1 str').1,
      (scr.termPuts s str).2 ++ (scr.termPuts (scr.termPuts s str).1 str').2) := by
  induction str generalizing s with
  | nil => rfl
  | cons c str ih =>
    simp only [List.cons_append, termPuts, ih, List.append_assoc]

theorem putTexts_eq (s : Cursor) (texts : List (List UInt8)) :
    scr.putTexts s texts = scr.termPuts s texts.flatten := by
  induction texts generalizing s with
  | nil => rfl
  | cons str texts ih => simp only [putTexts, ih, List.flatten_cons, termPuts_append]

theorem draw_call (scr : Screen) (s : Cursor) : (scr.draw s).2 = some s := by
  rw [draw]
  split_ifs <;> rfl

/-- The cursor behind what has been put out. -/
def Written.cursor (t : Written) : Cursor := ⟨.ofNat t.column, .ofNat (3 + t.lines)⟩

theorem Written.cursor_newline (t : Written) :
    (⟨0, t.cursor.posY + 1⟩ : Cursor) = (⟨0, t.lines + 1⟩ : Written).cursor := by
  rw [cursor, cursor, ← Nat.add_assoc, UInt64.ofNat_add (3 + t.lines)]
  rfl

theorem draw_cursor (hc : t.column < scr.termWidth.toNat) : (scr.draw t.cursor).1 =
    if t.column + 1 = scr.termWidth.toNat then (⟨0, t.lines + 1⟩ : Written).cursor
    else (⟨t.column + 1, t.lines⟩ : Written).cursor := by
  have hmax := scr.termWidth.toNat_lt
  have hcol : t.cursor.posX + 1 = .ofNat (t.column + 1) := (UInt64.ofNat_add ..).symm
  have hend : t.cursor.posX + 1 = scr.termWidth ↔ t.column + 1 = scr.termWidth.toNat := by
    rw [hcol, ← UInt64.toNat_inj, UInt64.toNat_ofNat', Nat.mod_eq_of_lt (by omega)]
  simp only [draw, hend]
  split_ifs
  · exact t.cursor_newline
  · rw [hcol]
    rfl

theorem draw_back (hc : t.column < scr.termWidth.toNat) :
    (scr.draw ⟨t.cursor.posX - 1, t.cursor.posY⟩).1 = t.cursor := by
  have hne : t.cursor.posX ≠ scr.termWidth := by
    intro he
    have hx := congrArg UInt64.toNat he
    have hmax := scr.termWidth.toNat_lt
    rw [Written.cursor, UInt64.toNat_ofNat', Nat.mod_eq_of_lt (by omega)] at hx
    omega
  simp only [draw, UInt64.sub_add_cancel, if_neg hne]

theorem putChar_cursor (hc : t.column < scr.termWidth.toNat) (c : UInt8) :
    (scr.putChar t.cursor c).1 = (scr.write t c).cursor ∧
      (scr.write t c).column < scr.termWidth.toNat := by
  rw [putChar, write]
  split_ifs with hend hback hwrap
  · exact ⟨t.cursor_newline, Nat.zero_lt_of_lt hc⟩
  · exact ⟨draw_back hc, hc⟩
  · rw [draw_cursor hc, if_pos hwrap]
    exact ⟨rfl, Nat.zero_lt_of_lt hc⟩
  · rw [draw_cursor hc, if_neg hwrap]
    exact ⟨rfl, Nat.lt_of_le_of_ne hc hwrap⟩

/-- A character is drawn on the screen if and only if it fits. -/
theorem putChar_inside_iff (hc : t.column < scr.termWidth.toNat) (c : UInt8) :
    (∀ call ∈ (scr.putChar t.cursor c).2, scr.Inside call) ↔ scr.Fits t c := by
  have hmax := scr.termWidth.toNat_lt
  have hx : t.cursor.posX.toNat = t.column := by
    rw [Written.cursor, UInt64.toNat_ofNat', Nat.mod_eq_of_lt (by omega)]
  have hrow : t.cursor.posY < scr.termHeight ↔ (3 + t.lines) % 2 ^ 64 < scr.termHeight.toNat := by
    rw [UInt64.lt_iff_toNat_lt, Written.cursor, UInt64.toNat_ofNat']
  rw [putChar]
  split_ifs with hend hback
  · refine iff_of_true nofun ?_
    rcases hend with h | h
    · exact .inl h
    · exact .inr (.inl h)
  · have hleft : t.cursor.posX - 1 < scr.termWidth ↔ t.column ≠ 0 := by
      rw [UInt64.lt_iff_toNat_lt, UInt64.toNat_sub, UInt64.toNat_one, hx]
      omega
    subst hback
    simp [draw_call, Inside, Fits, hleft, hrow, and_comm]
  · have hcol : t.cursor.posX < scr.termWidth := UInt64.lt_iff_toNat_lt.mpr (hx ▸ hc)
    rw [not_or] at hend
    simp [draw_call, Inside, Fits, hend, hback, hcol, hrow]

/-- One step of the console. -/
def step (scr : Screen) (t : Written) (c : UInt8) : Option Written := some (scr.write t c)

theorem termPuts_inside_iff (hc : t.column < scr.termWidth.toNat) (str : List UInt8) :
    (∀ call ∈ (scr.termPuts t.cursor str).2, scr.Inside call) ↔
      Run.Guarded scr.step scr.Fits t str := by
  induction str generalizing t with
  | nil => exact iff_of_true nofun trivial
  | cons c str ih =>
    obtain ⟨hcursor, hc'⟩ := putChar_cursor hc c
    simp only [termPuts, List.mem_append, Option.mem_toList, Run.Guarded, step, Option.some.injEq,
      forall_eq']
    rw [← putChar_inside_iff hc, ← ih hc', hcursor]
    constructor
    · exact fun h => ⟨fun call hc => h call (.inl hc), fun call hc => h call (.inr hc)⟩
    · rintro ⟨h, h'⟩ call (hc | hc)
      · exact h call hc
      · exact h' call hc

theorem pixels_inside (h : scr.Inside s) :
    ∀ p ∈ scr.pixels s, p.1 < scr.fbWidth ∧ p.2 < scr.fbHeight := by
  have hpixel : ∀ {pos fb : UInt64} {font : UInt32} {k : ℕ}, pos < fb / font.toUInt64 →
      k < font.toNat → pos * font.toUInt64 + .ofNat k < fb := by
    intro pos fb font k hpos hk
    have hfb := fb.toNat_lt
    rw [UInt64.lt_iff_toNat_lt, UInt64.toNat_div, UInt32.toNat_toUInt64] at hpos
    have hline : (pos.toNat + 1) * font.toNat ≤ fb.toNat :=
      (Nat.le_div_iff_mul_le (by omega)).mp hpos
    rw [Nat.succ_mul] at hline
    rw [UInt64.lt_iff_toNat_lt, UInt64.toNat_add, UInt64.toNat_mul, UInt32.toNat_toUInt64,
      UInt64.toNat_ofNat', Nat.mod_eq_of_lt (by omega : pos.toNat * font.toNat < 2 ^ 64),
      Nat.mod_eq_of_lt (by omega : k < 2 ^ 64), Nat.mod_eq_of_lt (by omega)]
    omega
  intro p hp
  simp only [pixels, List.mem_flatMap, List.mem_map, List.mem_range] at hp
  obtain ⟨i, hi, j, hj, rfl⟩ := hp
  exact ⟨hpixel h.1 hj, hpixel h.2 hi⟩

/-- Whatever is put out, every character is drawn on the screen if and only if each of them fits,
and then every pixel is in the framebuffer. -/
theorem putTexts_inside_iff (scr : Screen) (hw : 1 ≤ scr.termWidth)
    (texts : List (List UInt8)) :
    ((∀ call ∈ (scr.putTexts start texts).2, scr.Inside call) ↔
      Run.Guarded scr.step scr.Fits ⟨0, 0⟩ texts.flatten) ∧
    (Run.Guarded scr.step scr.Fits ⟨0, 0⟩ texts.flatten →
      ∀ call ∈ (scr.putTexts start texts).2, ∀ p ∈ scr.pixels call,
        p.1 < scr.fbWidth ∧ p.2 < scr.fbHeight) := by
  have hiff := termPuts_inside_iff (t := ⟨0, 0⟩) (UInt64.le_iff_toNat_le.mp hw) texts.flatten
  rw [putTexts_eq]
  exact ⟨hiff, fun hfits call hcall => pixels_inside (hiff.mpr hfits call hcall)⟩

/-- A screen of two columns and four lines. -/
def smallScreen : Screen := ⟨16, 64, 8, 16⟩

/-- A character, a backspace that wipes it out, and one that fills the line. -/
theorem putTexts_inside_smallScreen :
    (smallScreen.putTexts start [[97, 8], [98]]).2.all (decide <| smallScreen.Inside ·) = true :=
  List.all_eq_true.mpr fun call hcall => decide_eq_true <|
    (putTexts_inside_iff smallScreen (by decide) [[97, 8], [98]]).1.mpr (by decide) call hcall

/-- A character behind a line end on the last line is drawn below the screen, and a backspace at
the beginning of a line outside it. -/
theorem not_forall_inside : ¬ ∀ (scr : Screen) (texts : List (List UInt8)), 1 ≤ scr.termWidth →
    3 < scr.termHeight → ∀ call ∈ (scr.putTexts start texts).2, scr.Inside call := by
  intro h
  have hbelow := h smallScreen [[10, 97]] (by decide) (by decide) ⟨0, 4⟩ (by decide)
  exact absurd hbelow (by decide)

end Screen

end Koerix
