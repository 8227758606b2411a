import Koerix.Lib.CString
import Mathlib.Data.Int.Init
import Mathlib.Data.List.Nodup

/-! # Directories

A directory lists the files that were added to it, in that order. `lookup` compares the name
of each entry with the path until one of the two ends, and so takes the first entry whose
name begins with the path or with which the path begins.
-/

namespace Koerix

/-- `ENOENT`. -/
def ENOENT : ℤ := 2

/-- `ENOTSUP`. -/
def ENOTSUP : ℤ := 95

/-- `Direntry`: a name that has room in `char name[256]`, and a file. The pointer to it is not null,
as a null pointer cannot be copied. -/
structure Direntry (φ : Type) where
  name : CString
  fits : name.chars.length < 256
  file : φ

/-- `Dir`: `m_files` and `m_mountOverlay`. -/
inductive Dir (φ : Type) where
  | mk (files : List (Direntry φ)) (mountOverlay : Option (Dir φ))

namespace Dir

variable {φ : Type}

def files : Dir φ → List (Direntry φ)
  | mk files _ => files

def mountOverlay : Dir φ → Option (Dir φ)
  | mk _ mountOverlay => mountOverlay

/-- `Dir()`. -/
def empty : Dir φ := mk [] none

def isMountPoint (d : Dir φ) : Bool := d.mountOverlay.isSome

/-- `mount`: the directory afterwards, what is returned and `error`. -/
def mount (d fs : Dir φ) (error : ℤ) : Dir φ × Bool × ℤ :=
  if d.isMountPoint then (d, false, ENOTSUP)
  else (mk d.files (some fs), true, error)

/-- `matchesFileName`: the loop ends when one of the strings does, or at a `/` of the first. -/
def matchesFileName : List UInt8 → List UInt8 → Bool
  | p :: path, r :: reference =>
    if p = 47 then true
    else if p ≠ r then false
    else matchesFileName path reference
  | _, _ => true

/-- The loop of `doLookup` over the entries. -/
def lookupIn (path : CString) (error : ℤ) : List (Direntry φ) → Option φ × ℤ
  | [] => (none, ENOENT)
  | e :: es =>
    if matchesFileName e.name.chars path.chars then (some e.file, error)
    else lookupIn path error es

def doLookup (d : Dir φ) (path : CString) (error : ℤ) : Option φ × ℤ :=
  lookupIn path error d.files

/-- `lookup`: the file or a null pointer, and `error`. -/
def lookup (path : CString) (error : ℤ) : Dir φ → Option φ × ℤ
  | mk files none => (mk files none).doLookup path error
  | mk _ (some fs) => lookup path error fs

/-- `addFile`. Past 255 characters `strcpy` writes over the end of `name`. -/
def addFile (d : Dir φ) (name : CString) (file : φ) : Option (Dir φ) :=
  if h : name.chars.length + 1 ≤ 256 then
    some (mk (d.files ++ [⟨name, h, file⟩]) d.mountOverlay)
  else none

/-- A sequence of calls of `addFile`. -/
def addFiles (d : Dir φ) (calls : List (CString × φ)) : Option (Dir φ) :=
  calls.foldlM (fun d c => d.addFile c.1 c.2) d

/-- `lookup` in a new directory to which files were added. -/
def lookupAfter (calls : List (CString × φ)) (path : CString) (error : ℤ) :
    Option (Option φ × ℤ) :=
  (empty.addFiles calls).map (lookup path error)

/-- What was added to a directory. -/
def entries (d : Dir φ) : List (CString × φ) := d.files.map fun e => (e.name, e.file)

theorem matchesFileName_iff : ∀ {path reference : List UInt8}, 47 ∉ path →
    (matchesFileName path reference = true ↔ Comparable path reference)
  | [], _, _ => by simp [matchesFileName]
  | _ :: _, [], _ => by simp [matchesFileName]
  | p :: path, r :: reference, h => by
    obtain ⟨hp, hpath⟩ := List.ne_and_not_mem_of_not_mem_cons h
    rw [matchesFileName, if_neg (Ne.symm hp), Comparable.cons_iff]
    by_cases hr : p = r
    · simp [hr, matchesFileName_iff hpath]
    · simp [hr]

section AddFiles

variable {d d' : Dir φ} {calls : List (CString × φ)} {path : CString} {error : ℤ}

theorem addFile_eq_some {c : CString × φ} (h : d.addFile c.1 c.2 = some d') :
    c.1.chars.length < 256 ∧ d'.mountOverlay = d.mountOverlay ∧ d'.entries = d.entries ++ [c] := by
  unfold addFile at h
  split at h
  · obtain rfl := Option.some.inj h
    exact ⟨‹_›, rfl, by simp [entries, files]⟩
  · contradiction

theorem addFiles_eq_some (h : d.addFiles calls = some d') :
    (∀ c ∈ calls, c.1.chars.length < 256) ∧ d'.mountOverlay = d.mountOverlay ∧
      d'.entries = d.entries ++ calls := by
  induction calls generalizing d with
  | nil =>
    obtain rfl := Option.some.inj h
    simp
  | cons c calls ih =>
    obtain ⟨d₁, hc, hcalls⟩ := Option.bind_eq_some_iff.mp h
    obtain ⟨hfits, hoverlay, hentries⟩ := addFile_eq_some hc
    obtain ⟨hfits', hoverlay', hentries'⟩ := ih hcalls
    exact ⟨List.forall_mem_cons.mpr ⟨hfits, hfits'⟩, hoverlay'.trans hoverlay,
      by rw [hentries', hentries, List.append_assoc, List.singleton_append]⟩

theorem exists_addFiles (d : Dir φ) (h : ∀ c ∈ calls, c.1.chars.length < 256) :
    ∃ d', d.addFiles calls = some d' := by
  induction calls generalizing d with
  | nil => exact ⟨d, rfl⟩
  | cons c calls ih =>
    obtain ⟨hc, hcalls⟩ := List.forall_mem_cons.mp h
    have hadd : d.addFile c.1 c.2 = some _ := dif_pos hc
    obtain ⟨d', hd'⟩ := ih _ hcalls
    exact ⟨d', Option.bind_eq_some_iff.mpr ⟨_, hadd, hd'⟩⟩

theorem lookupIn_eq (es : List (Direntry φ)) (hes : ∀ e ∈ es, 47 ∉ e.name.chars) :
    lookupIn path error es =
      ((es.map fun e => (e.name, e.file)).find? fun c =>
        decide (Comparable c.1.chars path.chars)).elim (none, ENOENT) fun c =>
          (some c.2, error) := by
  induction es with
  | nil => rfl
  | cons e es ih =>
    obtain ⟨he, hes⟩ := List.forall_mem_cons.mp hes
    rw [lookupIn, List.map_cons]
    by_cases h : Comparable e.name.chars path.chars
    · rw [if_pos ((matchesFileName_iff he).mpr h), List.find?_cons_of_pos (by simpa using h)]
      rfl
    · rw [if_neg (mt (matchesFileName_iff he).mp h), List.find?_cons_of_neg (by simpa using h)]
      exact ih hes

/-- The call of `addFile` whose file `lookup` finds: the first with a name that is comparable
with the path. -/
def firstComparable (calls : List (CString × φ)) (path : CString) :
    Option (CString × φ) :=
  calls.find? fun c => decide (Comparable c.1.chars path.chars)

/-- What `lookup` does in a directory that was filled. -/
theorem lookupAfter_eq (path : CString) (error : ℤ)
    (hslash : ∀ c ∈ calls, 47 ∉ c.1.chars) (hfits : ∀ c ∈ calls, c.1.chars.length < 256) :
    lookupAfter calls path error =
      some ((firstComparable calls path).elim (none, ENOENT) fun c => (some c.2, error)) := by
  obtain ⟨d, hd⟩ := exists_addFiles empty hfits
  obtain ⟨-, hoverlay, hentries⟩ := addFiles_eq_some hd
  obtain ⟨files, overlay⟩ := d
  obtain rfl : overlay = none := hoverlay
  have hfiles : files.map (fun e => (e.name, e.file)) = calls := hentries
  have hes : ∀ e ∈ files, 47 ∉ e.name.chars := fun e he =>
    hslash (e.name, e.file) (hfiles ▸ List.mem_map_of_mem he)
  rw [lookupAfter, hd, Option.map_some, lookup, doLookup, Dir.files, lookupIn_eq files hes, hfiles]
  rfl

end AddFiles

/-- `lookup` finds the file that was added under the path, and `ENOENT` when there is none. -/
def Exact (calls : List (CString × φ)) (path : CString) : Prop :=
  ∀ error, ∃ r, lookupAfter calls path error = some r ∧
    (∀ c ∈ calls, c.1 = path → r.1 = some c.2) ∧ ((∀ c ∈ calls, c.1 ≠ path) → r = (none, ENOENT))

section Exact

variable {calls calls' : List (CString × φ)} {path : CString}

theorem Exact.fits (h : Exact calls path) : ∀ c ∈ calls, c.1.chars.length < 256 := by
  obtain ⟨r, hr, -⟩ := h 0
  obtain ⟨d, hd, -⟩ := Option.map_eq_some_iff.mp hr
  exact (addFiles_eq_some hd).1

theorem mem_of_firstComparable {c : CString × φ}
    (h : firstComparable calls path = some c) :
    c ∈ calls ∧ Comparable c.1.chars path.chars := by
  constructor
  · exact List.mem_of_find?_eq_some h
  · simpa using List.find?_some h

theorem ne_of_firstComparable (h : firstComparable calls path = none) :
    ∀ c ∈ calls, c.1 ≠ path := by
  intro c hc he
  have hn := List.find?_eq_none.mp h c hc
  exact hn (decide_eq_true (he ▸ Comparable.refl c.1.chars))

theorem eq_of_name (hnames : (calls.map (·.1)).Nodup) {c c' : CString × φ}
    (hc : c ∈ calls) (hc' : c' ∈ calls) (h : c.1 = c'.1) : c = c' :=
  List.inj_on_of_nodup_map hnames hc hc' h

theorem exact_iff (hnames : (calls.map (·.1)).Nodup) (hslash : ∀ c ∈ calls, 47 ∉ c.1.chars) :
    Exact calls path ↔ (∀ c ∈ calls, c.1.chars.length < 256) ∧
      ∀ c ∈ firstComparable calls path, (path, c.2) ∈ calls := by
  constructor
  · intro h
    use h.fits
    intro c hc
    have heq : ∀ error, lookupAfter calls path error = some (some c.2, error) := by
      intro error
      rw [lookupAfter_eq path error hslash h.fits, hc, Option.elim_some]
    by_cases hp : ∃ c' ∈ calls, c'.1 = path
    · obtain ⟨c', hc', hpath⟩ := hp
      obtain ⟨r, hr, hfound, -⟩ := h 0
      have hfile : c.2 = c'.2 := by
        have hsome := hfound c' hc' hpath
        rw [← Option.some.inj ((heq 0).symm.trans hr)] at hsome
        exact Option.some.inj hsome
      rwa [hfile, ← hpath]
    · obtain ⟨r, hr, -, hmissing⟩ := h 0
      have hr' := hmissing fun c' hc' he => hp ⟨c', hc', he⟩
      rw [heq 0, hr'] at hr
      simp [ENOENT] at hr
  · rintro ⟨hfits, hfirst⟩ error
    use (firstComparable calls path).elim (none, ENOENT) fun c => (some c.2, error)
    use lookupAfter_eq path error hslash hfits
    rcases hc : firstComparable calls path with _ | c
    · have hne := ne_of_firstComparable hc
      exact ⟨fun c' hc' he => absurd he (hne c' hc'), fun _ => rfl⟩
    · have hmem := hfirst c hc
      constructor
      · intro c' hc' he
        rw [← eq_of_name hnames hmem hc' he.symm]
        rfl
      · intro hne
        exact absurd rfl (hne _ hmem)

theorem exists_perm_firstComparable {c : CString × φ} (hc : c ∈ calls)
    (h : Comparable c.1.chars path.chars) :
    ∃ calls', calls'.Perm calls ∧ firstComparable calls' path = some c := by
  obtain ⟨l, r, rfl⟩ := List.append_of_mem hc
  use c :: (l ++ r), List.perm_middle.symm
  exact List.find?_cons_of_pos (by simpa using h)

theorem exact_perm_iff (hnames : (calls.map (·.1)).Nodup)
    (hslash : ∀ c ∈ calls, 47 ∉ c.1.chars) :
    (∀ calls', calls'.Perm calls → Exact calls' path) ↔
      (∀ c ∈ calls, c.1.chars.length < 256) ∧
        ∀ c ∈ calls, Comparable c.1.chars path.chars → (path, c.2) ∈ calls := by
  have hiff : ∀ calls', calls'.Perm calls → (Exact calls' path ↔
      (∀ c ∈ calls, c.1.chars.length < 256) ∧
        ∀ c ∈ firstComparable calls' path, (path, c.2) ∈ calls) := by
    intro calls' hp
    rw [exact_iff ((hp.map _).nodup_iff.mpr hnames) fun c hc => hslash c (hp.mem_iff.mp hc)]
    simp only [hp.mem_iff]
  constructor
  · intro h
    use (h calls (List.Perm.refl _)).fits
    intro c hc hcomp
    obtain ⟨calls', hp, hfirst⟩ := exists_perm_firstComparable hc hcomp
    exact ((hiff calls' hp).mp (h calls' hp)).2 c hfirst
  · rintro ⟨hfits, hcomp⟩ calls' hp
    apply (hiff calls' hp).mpr
    use hfits
    intro c hc
    obtain ⟨hmem, hc⟩ := mem_of_firstComparable hc
    exact hcomp c (hp.mem_iff.mp hmem) hc

theorem Exact.lookupAfter_of_mem (hslash : ∀ c ∈ calls, 47 ∉ c.1.chars) (h : Exact calls path)
    {c : CString × φ} (hc : c ∈ calls) (hpath : c.1 = path) (error : ℤ) :
    lookupAfter calls path error = some (some c.2, error) := by
  obtain ⟨r, hr, hfound, -⟩ := h error
  have heq := lookupAfter_eq path error hslash h.fits
  rcases hf : firstComparable calls path with _ | c'
  · exact absurd hpath (ne_of_firstComparable hf c hc)
  · rw [hf, Option.elim_some] at heq
    rw [← hfound c hc hpath, heq, ← Option.some.inj (heq.symm.trans hr)]

theorem Exact.lookupAfter_of_forall_ne (h : Exact calls path) (hne : ∀ c ∈ calls, c.1 ≠ path)
    (error : ℤ) : lookupAfter calls path error = some (none, ENOENT) := by
  obtain ⟨r, hr, -, hmissing⟩ := h error
  rw [hr, hmissing hne]

theorem Exact.lookupAfter_perm (hslash : ∀ c ∈ calls, 47 ∉ c.1.chars)
    (hp : calls'.Perm calls) (h : Exact calls path) (h' : Exact calls' path) (error : ℤ) :
    lookupAfter calls' path error = lookupAfter calls path error := by
  have hslash' : ∀ c ∈ calls', 47 ∉ c.1.chars := fun c hc => hslash c (hp.mem_iff.mp hc)
  by_cases hpath : ∃ c ∈ calls, c.1 = path
  · obtain ⟨c, hc, hpath⟩ := hpath
    rw [h.lookupAfter_of_mem hslash hc hpath,
      h'.lookupAfter_of_mem hslash' (hp.mem_iff.mpr hc) hpath]
  · have hne : ∀ c ∈ calls, c.1 ≠ path := fun c hc he => hpath ⟨c, hc, he⟩
    rw [h.lookupAfter_of_forall_ne hne,
      h'.lookupAfter_of_forall_ne fun c hc => hne c (hp.mem_iff.mp hc)]

/-- `lookup` is exact when the names have room in an entry and the first name comparable with
the path is the path, or was given to the same file. Exact in every order it is when that
holds of every name comparable with the path, and then the order makes no difference. -/
theorem lookup_exact_iff (hnames : (calls.map (·.1)).Nodup)
    (hslash : ∀ c ∈ calls, 47 ∉ c.1.chars) (path : CString) :
    (Exact calls path ↔ (∀ c ∈ calls, c.1.chars.length < 256) ∧
      ∀ c ∈ firstComparable calls path, (path, c.2) ∈ calls) ∧
    ((∀ calls', calls'.Perm calls → Exact calls' path) ↔
      (∀ c ∈ calls, c.1.chars.length < 256) ∧
        ∀ c ∈ calls, Comparable c.1.chars path.chars → (path, c.2) ∈ calls) ∧
    ∀ calls', calls'.Perm calls → Exact calls path → Exact calls' path →
      ∀ error, lookupAfter calls' path error = lookupAfter calls path error :=
  ⟨exact_iff hnames hslash, exact_perm_iff hnames hslash,
    fun _ hp h h' => h.lookupAfter_perm hslash hp h'⟩

end Exact

/-- The names `kbd` and `uart0`. -/
def twoDevices : List (CString × ℕ) :=
  [(⟨[107, 98, 100], by decide⟩, 1), (⟨[117, 97, 114, 116, 48], by decide⟩, 2)]

/-- `uart0` is found in either order. -/
theorem lookup_exact_iff_twoDevices :
    Exact twoDevices ⟨[117, 97, 114, 116, 48], by decide⟩ ∧
      Exact twoDevices.reverse ⟨[117, 97, 114, 116, 48], by decide⟩ := by
  obtain ⟨-, hperm, -⟩ := @lookup_exact_iff ℕ twoDevices (by decide) (by decide)
    ⟨[117, 97, 114, 116, 48], by decide⟩
  have hexact := hperm.mpr (by decide)
  exact ⟨hexact _ (.refl _), hexact _ (List.reverse_perm _)⟩

/-- A directory with a file `a` finds it under `ab`. -/
theorem not_forall_lookup_exact :
    ¬ ∀ (calls : List (CString × ℕ)) (path : CString), (calls.map (·.1)).Nodup →
      (∀ c ∈ calls, c.1.chars ≠ [] ∧ 47 ∉ c.1.chars) → 47 ∉ path.chars → Exact calls path := by
  intro h
  have hexact := h [(⟨[97], by decide⟩, 1)] ⟨[97, 98], by decide⟩ (by decide) (by decide)
    (by decide)
  obtain ⟨r, hr, -, hmissing⟩ := hexact 0
  have hfound : lookupAfter [(⟨[97], by decide⟩, 1)] ⟨[97, 98], by decide⟩ 0 =
      some (some 1, 0) := by decide
  rw [hfound, hmissing (by decide)] at hr
  contradiction

end Dir

end Koerix
