import Koerix.Lib.CString
import Mathlib.Data.List.TakeWhile

/-! # The kernel command line

`cmdline_get` looks for an option in a line of tokens. The cursor it moves along the line is
the text before the NUL that is left to read, and nothing once it has moved past the NUL.
-/

namespace Koerix.Cmdline

/-- `sp++`. -/
def advance : List UInt8 → Option (List UInt8)
  | [] => none
  | _ :: sp => some sp

/-- `match_name`: what is returned, and the cursor. -/
def matchName : List UInt8 → List UInt8 → Bool × Option (List UInt8)
  | n :: name, c :: sp =>
    if c = 61 then (true, some sp)
    else if n ≠ c then (false, some sp)
    else matchName name sp
  | _, sp => (true, advance sp)

/-- `next_name`: the cursor, or nothing when `false` is returned. -/
def nextName : List UInt8 → Option (List UInt8)
  | [] => none
  | c :: sp => if c = 32 then some sp else nextName sp

/-- `copy_value`: what stands in the buffer before the NUL. -/
def copyValue : List UInt8 → List UInt8
  | [] => []
  | c :: sp => if c = 32 then [] else c :: copyValue sp

/-- How a call ends: `false` is returned, or `true` with a value in the buffer, or the text
behind the NUL is read. -/
inductive Outcome where
  | missing
  | found (buffer : List UInt8)
  | pastNul
  deriving DecidableEq

theorem length_of_matchName : ∀ {name sp sp' : List UInt8},
    matchName name sp = (false, some sp') → sp'.length < sp.length
  | [], _, _, h => by simp [matchName] at h
  | _ :: _, [], _, h => by simp [matchName] at h
  | n :: name, c :: sp, sp', h => by
    rw [matchName] at h
    split_ifs at h
    · simp at h
    · simp at h
      simp [h]
    · exact Nat.lt_succ_of_lt (length_of_matchName h)

theorem length_of_nextName : ∀ {sp sp' : List UInt8},
    nextName sp = some sp' → sp'.length < sp.length
  | [], _, h => by simp [nextName] at h
  | c :: sp, sp', h => by
    rw [nextName] at h
    split_ifs at h
    · simp at h
      simp [h]
    · exact Nat.lt_succ_of_lt (length_of_nextName h)

/-- The loop of `cmdline_get`. -/
def search (name sp : List UInt8) : Outcome :=
  match _hm : matchName name sp with
  -- `copy_value` and `next_name` both begin with a read of `*sp`
  | (_, none) => .pastNul
  | (true, some sp') => .found (copyValue sp')
  | (false, some sp') =>
    match _hn : nextName sp' with
    | none => .missing
    | some sp'' => search name sp''
termination_by sp.length
decreasing_by
  exact Nat.lt_trans (length_of_nextName _hn) (length_of_matchName _hm)

/-- `cmdline_get`. -/
def cmdlineGet (name line : CString) : Outcome :=
  if name.chars = [] then .missing else search name.chars line.chars

/-- The text of a token before its first `=`. -/
def key (t : List UInt8) : List UInt8 := t.takeWhile (· ≠ 61)

/-- The value that a token of the form `name=value` gives. -/
def assigned (name t : List UInt8) : Option (List UInt8) :=
  if 61 ∈ t ∧ key t = name then some (t.drop (name.length + 1)) else none

/-- The value of the first token of the form `name=value`. -/
def wanted (name line : List UInt8) : Option (List UInt8) :=
  (line.splitOn 32).findSome? (assigned name)

/-- How a call should end. -/
def Outcome.of : Option (List UInt8) → Outcome
  | none => .missing
  | some v => .found v

/-- The tokens of a line lead to the value `want`. A token with a key that is not comparable
with the name is passed by, and one that is a proper beginning of the name takes the token
behind it along. Any other one ends the search, and what is behind its `=`, or behind the
character that follows the name, is the value. -/
def Leads (name : List UInt8) (want : Option (List UInt8)) : List (List UInt8) → Prop
  | [] => want = none
  | t :: ts =>
    if name <+: key t then
      if t = name then ts ≠ [] ∧ want = ts.head?
      else want = some (t.drop (name.length + 1))
    else if key t <+: name then
      if 61 ∈ t then want = some (t.drop ((key t).length + 1))
      else match ts with
        | [] => False
        | _ :: ts => Leads name want ts
    else Leads name want ts

section Token

variable {name t u v l l' : List UInt8} {want : Option (List UInt8)}

theorem matchName_append {p : List UInt8} (hp : 61 ∉ p) (name sp : List UInt8) :
    matchName (p ++ name) (p ++ sp) = matchName name sp := by
  induction p with
  | nil => rfl
  | cons c p ih =>
    obtain ⟨hc, hp⟩ := List.ne_and_not_mem_of_not_mem_cons hp
    rw [List.cons_append, List.cons_append, matchName, if_neg (Ne.symm hc), if_neg (by simp)]
    exact ih hp

theorem nextName_of_not_mem (h : 32 ∉ l) : nextName l = none := by
  induction l with
  | nil => rfl
  | cons c l ih =>
    obtain ⟨hc, hl⟩ := List.ne_and_not_mem_of_not_mem_cons h
    rw [nextName, if_neg (Ne.symm hc), ih hl]

theorem nextName_append (h : 32 ∉ t) (l : List UInt8) : nextName (t ++ 32 :: l) = some l := by
  induction t with
  | nil => rfl
  | cons c t ih =>
    obtain ⟨hc, ht⟩ := List.ne_and_not_mem_of_not_mem_cons h
    rw [List.cons_append, nextName, if_neg (Ne.symm hc), ih ht]

theorem copyValue_of_not_mem (h : 32 ∉ l) : copyValue l = l := by
  induction l with
  | nil => rfl
  | cons c l ih =>
    obtain ⟨hc, hl⟩ := List.ne_and_not_mem_of_not_mem_cons h
    rw [copyValue, if_neg (Ne.symm hc), ih hl]

theorem copyValue_append (h : 32 ∉ t) (l : List UInt8) : copyValue (t ++ 32 :: l) = t := by
  induction t with
  | nil => rfl
  | cons c t ih =>
    obtain ⟨hc, ht⟩ := List.ne_and_not_mem_of_not_mem_cons h
    rw [List.cons_append, copyValue, if_neg (Ne.symm hc), ih ht]

theorem head?_splitOn (l : List UInt8) : (l.splitOn 32).head? = some (copyValue l) := by
  obtain ⟨hl, hs⟩ | ⟨t, l', ht, rfl, hs⟩ := List.splitOn_cases 32 l
  · rw [hs, copyValue_of_not_mem hl, List.head?_cons]
  · rw [hs, copyValue_append ht, List.head?_cons]

/-- What follows a token in the line, and the tokens of it: nothing, or a space and more
text. -/
inductive Follows : List UInt8 → List (List UInt8) → Prop
  | nul : Follows [] []
  | space (l : List UInt8) : Follows (32 :: l) (l.splitOn 32)

theorem exists_follows (l : List UInt8) : ∃ t rest ts,
    32 ∉ t ∧ l = t ++ rest ∧ l.splitOn 32 = t :: ts ∧ Follows rest ts := by
  obtain ⟨hl, hs⟩ | ⟨t, l', ht, rfl, hs⟩ := List.splitOn_cases 32 l
  · exact ⟨l, [], [], hl, (List.append_nil l).symm, hs, .nul⟩
  · exact ⟨t, 32 :: l', _, ht, rfl, hs, .space l'⟩

theorem Follows.copyValue {rest : List UInt8} {ts : List (List UInt8)} (h : Follows rest ts)
    (ht : 32 ∉ t) : copyValue (t ++ rest) = t := by
  cases h with
  | nul => rw [List.append_nil, copyValue_of_not_mem ht]
  | space l => exact copyValue_append ht l

theorem search_of_pastNul {b : Bool} (h : matchName name l = (b, none)) :
    search name l = .pastNul := by
  rw [search]
  split <;> simp_all

theorem search_of_true (h : matchName name l = (true, some l')) :
    search name l = .found (copyValue l') := by
  rw [search]
  split <;> simp_all

/-- `next_name` and what comes after it. -/
def searchNext (name sp : List UInt8) : Outcome :=
  (nextName sp).elim .missing (search name)

theorem search_of_false (h : matchName name l = (false, some l')) :
    search name l = searchNext name l' := by
  rw [search]
  split
  · simp_all
  · simp_all
  · rename_i sp' hm
    obtain rfl : sp' = l' := by simp_all
    unfold searchNext
    split <;> simp_all

theorem Follows.searchNext {rest : List UInt8} {ts : List (List UInt8)} (h : Follows rest ts)
    (ht : 32 ∉ t) (hnext : ∀ l', rest = 32 :: l' →
      (search name l' = .of want ↔ Leads name want (l'.splitOn 32))) :
    searchNext name (t ++ rest) = .of want ↔ Leads name want ts := by
  cases h with
  | nul =>
    rw [Cmdline.searchNext, List.append_nil, nextName_of_not_mem ht, Leads]
    cases want <;> simp [Outcome.of]
  | space l =>
    rw [Cmdline.searchNext, nextName_append ht]
    exact hnext l rfl

theorem found_eq_of : Outcome.found v = .of want ↔ want = some v := by
  cases want <;> simp [Outcome.of, eq_comm]

theorem pastNul_ne_of : Outcome.pastNul ≠ .of want := by
  cases want <;> simp [Outcome.of]

theorem not_mem_key (t : List UInt8) : 61 ∉ key t := fun h => by
  simpa using List.mem_takeWhile_imp h

theorem key_prefix_token (t : List UInt8) : key t <+: t := List.takeWhile_prefix _

theorem key_append (h : 61 ∉ t) (l : List UInt8) : key (t ++ l) = t ++ key l := by
  apply List.takeWhile_append_of_pos
  intro c hc
  exact decide_eq_true fun he => h (he ▸ hc)

theorem key_of_not_mem (h : 61 ∉ t) : key t = t := by
  have h' := key_append h []
  rwa [List.append_nil, show key [] = [] from rfl, List.append_nil] at h'

theorem exists_eq_key_append (h : 61 ∈ t) : ∃ v, t = key t ++ 61 :: v := by
  obtain ⟨u, v, rfl, hu⟩ := List.eq_append_cons_of_mem h
  use v
  rw [key_append hu, key, List.takeWhile_cons_of_neg (by simp), List.append_nil]

theorem leads_cons {ts : List (List UInt8)} : Leads name want (t :: ts) ↔
    if name <+: key t then
      if t = name then ts ≠ [] ∧ want = ts.head?
      else want = some (t.drop (name.length + 1))
    else if key t <+: name then
      if 61 ∈ t then want = some (t.drop ((key t).length + 1))
      else ts ≠ [] ∧ Leads name want ts.tail
    else Leads name want ts := by
  cases ts <;> simp [Leads]

section Shapes

variable {p m : List UInt8} {n c : UInt8} {rest : List UInt8} {ts : List (List UInt8)}

theorem matchName_self (hname : 61 ∉ name) (sp : List UInt8) :
    matchName name (name ++ sp) = (true, advance sp) := by
  have h := matchName_append hname [] sp
  rw [List.append_nil] at h
  exact h.trans (by simp [matchName])

theorem search_self_nul (hname : 61 ∉ name) : search name name = .pastNul := by
  have h := matchName_self hname []
  rw [List.append_nil] at h
  exact search_of_pastNul h

theorem search_self_space (hname : 61 ∉ name) (l : List UInt8) :
    search name (name ++ 32 :: l) = .found (copyValue l) :=
  search_of_true (matchName_self hname (32 :: l))

theorem search_longer (hname : 61 ∉ name) (hv : 32 ∉ v) (hrest : Follows rest ts) :
    search name (name ++ c :: (v ++ rest)) = .found v := by
  rw [search_of_true (matchName_self hname _), hrest.copyValue hv]

theorem search_assigned (hp : 61 ∉ p) (hv : 32 ∉ v) (hrest : Follows rest ts) :
    search (p ++ n :: m) (p ++ 61 :: (v ++ rest)) = .found v := by
  have h : matchName (p ++ n :: m) (p ++ 61 :: (v ++ rest)) = (true, some (v ++ rest)) := by
    rw [matchName_append hp, matchName, if_pos rfl]
  rw [search_of_true h, hrest.copyValue hv]

theorem search_shorter_nul (hp : 61 ∉ p) : search (p ++ n :: m) p = .pastNul := by
  have h := matchName_append hp (n :: m) []
  rw [List.append_nil] at h
  exact search_of_pastNul h

theorem search_differs (hp : 61 ∉ p) (hc : c ≠ 61) (hn : n ≠ c) (l : List UInt8) :
    search (p ++ n :: m) (p ++ c :: l) = searchNext (p ++ n :: m) l := by
  apply search_of_false
  rw [matchName_append hp, matchName, if_neg hc, if_pos hn]

end Shapes

theorem exists_cons_of_proper (h : t <+: name) (hne : ¬ name <+: t) :
    ∃ n m, name = t ++ n :: m := by
  obtain ⟨w, rfl⟩ := h
  cases w with
  | nil => exact absurd (by simp) hne
  | cons n m => exact ⟨n, m, rfl⟩

/-- The search finds what the tokens of the line lead to. -/
theorem search_iff (hname : 61 ∉ name) (hspace : 32 ∉ name) (l : List UInt8) :
    search name l = .of want ↔ Leads name want (l.splitOn 32) := by
  induction hlen : l.length using Nat.strong_induction_on generalizing l with
  | _ k ih =>
  subst hlen
  obtain ⟨t, rest, ts, ht, rfl, hs, hrest⟩ := exists_follows l
  rw [hs, leads_cons]
  split_ifs with hp htn hk he
  · subst htn
    cases hrest with
    | nul => simp [search_self_nul hname, pastNul_ne_of]
    | space l => simp [search_self_space hname, found_eq_of, head?_splitOn]
  · obtain ⟨w, rfl⟩ := hp.trans (key_prefix_token t)
    cases w with
    | nil => exact absurd (List.append_nil name) htn
    | cons c v =>
      have hv : 32 ∉ v := fun h => ht (by simp [h])
      rw [List.append_assoc, List.cons_append, search_longer hname hv hrest, found_eq_of]
      simp
  · obtain ⟨n, m, hm⟩ := exists_cons_of_proper hk hp
    obtain ⟨v, hv⟩ := exists_eq_key_append he
    have hkey := not_mem_key t
    generalize key t = p at hm hv hkey ⊢
    subst hm hv
    have hv : 32 ∉ v := fun h => ht (by simp [h])
    rw [List.append_assoc, List.cons_append, search_assigned hkey hv hrest, found_eq_of]
    simp
  · rw [key_of_not_mem he] at hp hk
    obtain ⟨n, m, rfl⟩ := exists_cons_of_proper hk hp
    cases hrest with
    | nul => simp [search_shorter_nul he, pastNul_ne_of]
    | space l =>
      -- the space is a mismatch, and `next_name` starts behind it
      have hn : n ≠ 32 := fun h => hspace (by simp [h])
      rw [search_differs he (by decide) hn]
      obtain ⟨u, rest, us, hu, rfl, hus, hrest⟩ := exists_follows l
      rw [hus, hrest.searchNext hu]
      · simp
      · rintro l' rfl
        exact ih l'.length (by simp; omega) l' rfl
  · have hcomp : ¬ Comparable name (key t) := fun h => h.elim hp hk
    obtain ⟨p, n, m, c, u, rfl, hkey, hn⟩ := Comparable.exists_ne hcomp
    have hkey' := not_mem_key t
    obtain ⟨v, hv⟩ := key_prefix_token t
    rw [hkey] at hkey' hv
    subst hv
    have hv : 32 ∉ u ++ v := fun h => ht (by simp at h ⊢; tauto)
    have hp' : 61 ∉ p := fun h => hkey' (by simp [h])
    have hc : c ≠ 61 := fun h => hkey' (by simp [h])
    rw [List.append_assoc, List.append_assoc, List.cons_append, search_differs hp' hc hn,
      ← List.append_assoc, hrest.searchNext hv]
    rintro l' rfl
    exact ih l'.length (by simp; omega) l' rfl

end Token

/-- The tokens in front of the first `name=value` have keys that are not comparable with the
name. -/
def ToldApart (name : List UInt8) : List (List UInt8) → Prop
  | [] => True
  | t :: ts => assigned name t ≠ none ∨ ¬ Comparable name (key t) ∧ ToldApart name ts

instance ToldApart.decidable (name : List UInt8) :
    (ts : List (List UInt8)) → Decidable (ToldApart name ts)
  | [] => isTrue trivial
  | _ :: ts =>
    have := ToldApart.decidable name ts
    inferInstanceAs (Decidable (_ ∨ _ ∧ _))

/-- A line of such tokens leads to the value of the first `name=value`. -/
theorem ToldApart.leads {name : List UInt8} (hname : 61 ∉ name) {ts : List (List UInt8)}
    (h : ToldApart name ts) : Leads name (ts.findSome? (assigned name)) ts := by
  induction ts with
  | nil => rfl
  | cons t ts ih =>
    rw [leads_cons]
    obtain h | ⟨hcomp, h⟩ := h
    · unfold assigned at h
      split_ifs at h with ht
      · obtain ⟨he, rfl⟩ := ht
        have hne : t ≠ key t := fun heq => not_mem_key t (heq ▸ he)
        rw [if_pos (List.prefix_refl _), if_neg hne]
        simp [assigned, he]
      · contradiction
    · have hassigned : assigned name t = none := by
        apply if_neg
        rintro ⟨-, rfl⟩
        exact hcomp (Comparable.refl _)
      rw [if_neg fun hp => hcomp (Or.inl hp), if_neg fun hk => hcomp (Or.inr hk),
        List.findSome?_cons, hassigned]
      exact ih h

/-- `cmdline_get` ends as it should when the tokens lead to the value of the first
`name=value`, as they do when no token in front of it can be taken for one. -/
theorem cmdlineGet_iff_leads {name : CString} (line : CString) (hne : name.chars ≠ [])
    (hname : 61 ∉ name.chars) (hspace : 32 ∉ name.chars) :
    (cmdlineGet name line = .of (wanted name.chars line.chars) ↔
      Leads name.chars (wanted name.chars line.chars) (line.chars.splitOn 32)) ∧
    (ToldApart name.chars (line.chars.splitOn 32) →
      cmdlineGet name line = .of (wanted name.chars line.chars)) := by
  have hiff : cmdlineGet name line = .of (wanted name.chars line.chars) ↔
      Leads name.chars (wanted name.chars line.chars) (line.chars.splitOn 32) := by
    rw [cmdlineGet, if_neg hne]
    exact search_iff hname hspace line.chars
  exact ⟨hiff, fun h => hiff.mpr (h.leads hname)⟩

/-- `init`. -/
def initName : CString := ⟨[105, 110, 105, 116], by decide⟩

/-- `console=t init=b` gives `init` the value `b`. -/
theorem cmdlineGet_iff_leads_init :
    cmdlineGet initName ⟨[99, 111, 110, 115, 111, 108, 101, 61, 116, 32,
      105, 110, 105, 116, 61, 98], by decide⟩ = .found [98] :=
  (@cmdlineGet_iff_leads initName ⟨[99, 111, 110, 115, 111, 108, 101, 61, 116, 32,
      105, 110, 105, 116, 61, 98], by decide⟩ (by decide) (by decide) (by decide)).2 (by decide)

/-- In `initrd=a init=b` the value of `init` that is found is `d=a`. -/
theorem not_forall_cmdlineGet :
    ¬ ∀ name line : CString, name.chars ≠ [] → 61 ∉ name.chars → 32 ∉ name.chars →
      cmdlineGet name line = .of (wanted name.chars line.chars) := by
  intro h
  have hget := h initName
    ⟨[105, 110, 105, 116, 114, 100, 61, 97, 32, 105, 110, 105, 116, 61, 98], by decide⟩
    (by decide) (by decide) (by decide)
  have hfound : search initName.chars (initName.chars ++ 114 :: ([100, 61, 97] ++
      32 :: [105, 110, 105, 116, 61, 98])) = .found [100, 61, 97] :=
    search_longer (by decide) (by decide) (.space _)
  have hwrong : Outcome.found [100, 61, 97] = .found [98] := hfound.symm.trans hget
  exact absurd hwrong (by decide)

end Koerix.Cmdline
