import Koerix.Map.Shape

/-! # Inserting into a map

`insert` walks down to null and hangs the new entry there, so that one link changes.
`operator[]` thus acts on the search tree as an update of a finite map, and keeps what the
parent pointers say.
-/

namespace Koerix

open SearchTree

variable {K V : Type}

namespace Map

variable {m m' : Map K V} {t : SearchTree ℕ K V} {link : Link} {p q parent : Option ℕ}
  {this n : ℕ} {k : K} {v : V} {S : Set ℕ}

/-- The map after an entry has been inserted below a link: outside of the tree there, only the
link has changed. -/
structure Inserted (m m' : Map K V) (link : Link) (p : Option ℕ) (this : ℕ) (ids : List ℕ) :
    Prop where
  dom_eq : m'.heap.dom = m.heap.dom
  root_eq : m'.root = (m.put link p).root
  entry_eq : ∀ b, b ∉ ids → b ≠ this → m'.heap.entry b = (m.put link p).heap.entry b

theorem root_put_of_holder (h : link.holder ≠ none) : (m.put link p).root = m.root := by
  cases link with
  | root => exact absurd rfl h
  | _ => rfl

theorem root_put_val : (m.put link (m.val link)).root = m.root := by
  cases link <;> rfl

theorem key_put {X : Link} {p : Option ℕ} {b : ℕ} :
    ((m.put X p).heap.entry b).key = (m.heap.entry b).key ∧
      ((m.put X p).heap.entry b).value = (m.heap.entry b).value := by
  by_cases hb : X.holder = some b
  · cases X with
    | root => cases hb
    | _ =>
      cases hb
      simp [put]
  · rw [entry_put_of_ne hb]
    exact ⟨rfl, rfl⟩

/-- The link is the left or right child of an entry in `S`. -/
def Side (S : Set ℕ) (X : Link) : Prop := ∃ b ∈ S, X = .left b ∨ X = .right b

theorem Side.parent_put {X : Link} (hX : Side S X) {p : Option ℕ} {b : ℕ} :
    ((m.put X p).heap.entry b).parent = (m.heap.entry b).parent := by
  obtain ⟨c, -, hc⟩ := hX
  rcases eq_or_ne b c with rfl | hne
  · rcases hc with rfl | rfl <;> simp [put]
  · rw [entry_put_of_ne]
    rcases hc with rfl | rfl <;> simpa [Link.holder] using hne.symm

theorem Side.root_put {X : Link} (hX : Side S X) {p : Option ℕ} : (m.put X p).root = m.root := by
  obtain ⟨c, -, rfl | rfl⟩ := hX <;> rfl

theorem Side.links_put {X : Link} (hX : Side S X) {p : Option ℕ} {b c : ℕ}
    (hc : ((m.put X p).heap.entry b).left = some c ∨ ((m.put X p).heap.entry b).right = some c) :
    ((m.heap.entry b).left = some c ∨ (m.heap.entry b).right = some c) ∨ p = some c := by
  obtain ⟨d, -, hd⟩ := hX
  rcases eq_or_ne b d with rfl | hne
  · rcases hd with rfl | rfl
    · simp only [put, Entries.entry_store_self] at hc
      tauto
    · simp only [put, Entries.entry_store_self] at hc
      tauto
  · rw [entry_put_of_ne] at hc
    · exact Or.inl hc
    · rcases hd with rfl | rfl <;> simpa [Link.holder] using hne.symm

theorem insertAt_null [LinearOrder K] (hval : m.get link = some none) (hthis : this ∈ m.heap.dom) :
    insertAt this n link parent m =
      some ((m.put link (some this)).put (.parent this) parent) := by
  have hholder := (get_eq_some_iff.mp hval).1
  have hset : m.set link (some this) = some (m.put link (some this)) :=
    set_eq_some_iff.mpr ⟨hholder, rfl⟩
  have hset' : (m.put link (some this)).set (.parent this) parent =
      some ((m.put link (some this)).put (.parent this) parent) :=
    set_eq_some_iff.mpr ⟨by simpa [Link.holder] using hthis, rfl⟩
  cases n <;> simp [insertAt, hval, hset, hset']

theorem insertAt_some [LinearOrder K] {a : ℕ} (hval : m.get link = some (some a))
    (ha : a ∈ m.heap.dom) (hthis : this ∈ m.heap.dom) : insertAt this (n + 1) link parent m =
      if (m.heap.entry this).key < (m.heap.entry a).key then insertAt this n (.left a) (some a) m
      else insertAt this n (.right a) (some a) m := by
  simp [insertAt, hval, Entries.load_of_mem ha, Entries.load_of_mem hthis]

theorem inserted_null :
    Inserted m ((m.put link (some this)).put (.parent this) parent) link (some this) this [] where
  dom_eq := by simp
  root_eq := root_put_of_holder (by simp [Link.holder])
  entry_eq b _ hb := entry_put_of_ne (by simpa [Link.holder] using hb.symm)

namespace Inserted

variable {a b : ℕ} {side : Link} {ids ids' : List ℕ}

theorem below (hin : Inserted m m' side q this ids') (hside : side.holder = some a)
    (hval : m.val link = some a) (ha : a ∈ ids) (hsub : ∀ b ∈ ids', b ∈ ids) :
    Inserted m m' link (some a) this ids where
  dom_eq := hin.dom_eq
  root_eq := by
    rw [hin.root_eq, root_put_of_holder (by simp [hside]), ← hval, root_put_val]
  entry_eq b hb hne := by
    rw [hin.entry_eq b (fun hm => hb (hsub b hm)) hne, ← hval, entry_put_val, entry_put_of_ne]
    rw [hside]
    rintro ⟨⟩
    exact hb ha

theorem entry_of_ne (hin : Inserted m m' link p this ids) (hids : b ∉ ids) (hne : b ≠ this)
    (hb : link.holder ≠ some b) : m'.heap.entry b = m.heap.entry b := by
  rw [hin.entry_eq b hids hne, entry_put_of_ne hb]

end Inserted

/-- `insert` acts on the tree below the link. -/
theorem insertAt_shape [LinearOrder K] (link : Link) (parent : Option ℕ) (n : ℕ)
    (hval : m.get link = some p) (hs : m.heap.Shape p t)
    (hnodup : t.ids.Nodup) (hthis : this ∈ m.heap.dom) (hnew : this ∉ t.ids)
    (hkey : (m.heap.entry this).key = k) (hvalue : (m.heap.entry this).value = v)
    (hleft : (m.heap.entry this).left = none) (hright : (m.heap.entry this).right = none)
    (hholder : link.holder ≠ some this) (hn : t.size ≤ n) :
    ∃ m' p', insertAt this n link parent m = some m' ∧ Inserted m m' link p' this t.ids ∧
      m'.heap.Shape p' (t.insert this k v) ∧
      (m.heap.Parented parent t → m'.heap.Parented parent (t.insert this k v)) := by
  induction t generalizing link p parent n with
  | leaf =>
    cases hs
    have hentry : ((m.put link (some this)).put (.parent this) parent).heap.entry this =
        { m.heap.entry this with parent := parent } := by
      rw [← entry_put_of_ne (m := m) (p := some this) hholder]
      exact Function.update_self _ _ _
    refine ⟨_, some this, insertAt_null hval hthis, inserted_null, ?_, fun _ => ?_⟩
    · refine ⟨rfl, by simpa using hthis, ?_, ?_, ?_, ?_⟩ <;> rw [hentry]
      · exact hkey
      · exact hvalue
      · exact hleft
      · exact hright
    · exact ⟨by rw [hentry], trivial, trivial⟩
  | node a k' v' l r ihl ihr =>
    obtain ⟨rfl, ha, hk, hv, hl, hr⟩ := hs
    rw [size_node] at hn
    obtain ⟨n, rfl⟩ : ∃ n', n = n' + 1 := ⟨n - 1, by omega⟩
    simp only [ids_node, List.mem_cons, List.mem_append, not_or] at hnew
    rw [ids_node, List.nodup_cons, List.mem_append, not_or, List.nodup_append] at hnodup
    obtain ⟨⟨hal, har⟩, hnl, hnr, hdisj⟩ := hnodup
    have hat : a ≠ this := Ne.symm hnew.1
    have hval' := (get_eq_some_iff.mp hval).2
    have hside : ∀ side : Link, side.holder = some a → side.holder ≠ some this ∧
        m.get side = some (m.val side) := by
      intro side hside
      refine ⟨by simpa [hside] using hat, get_eq_some_iff.mpr ⟨fun b hb => ?_, rfl⟩⟩
      rw [hside] at hb
      cases hb
      exact ha
    rw [insertAt_some hval ha hthis, hkey, hk, SearchTree.insert]
    split_ifs with hlt
    · obtain ⟨hne, hget⟩ := hside (.left a) rfl
      obtain ⟨m', p', hm', hin, hs', hpar'⟩ := ihl _ (some a) n hget hl hnl
        hnew.2.1 hne (by omega)
      have hea : m'.heap.entry a = { m.heap.entry a with left := p' } :=
        (hin.entry_eq a hal hat).trans (Function.update_self _ _ _)
      have her : ∀ b ∈ r.ids, m'.heap.entry b = m.heap.entry b := fun b hb =>
        hin.entry_of_ne (fun hbl => hdisj b hbl b hb rfl) (fun he => hnew.2.2 (he ▸ hb))
          (fun he => har (Option.some.inj he ▸ hb))
      refine ⟨m', some a, hm', hin.below rfl hval' (by simp) (by simp_all), ?_, ?_⟩
      · refine ⟨rfl, hin.dom_eq ▸ ha, by rw [hea, hk], by rw [hea, hv], ?_, ?_⟩ <;> rw [hea]
        · exact hs'
        · exact hr.congr (fun b _ hb => hin.dom_eq ▸ hb) her
      · rintro ⟨hpa, hpl, hpr⟩
        exact ⟨by rw [hea, hpa], hpar' hpl, hpr.congr fun b hb => by rw [her b hb]⟩
    · obtain ⟨hne, hget⟩ := hside (.right a) rfl
      obtain ⟨m', p', hm', hin, hs', hpar'⟩ := ihr _ (some a) n hget hr hnr
        hnew.2.2 hne (by omega)
      have hea : m'.heap.entry a = { m.heap.entry a with right := p' } :=
        (hin.entry_eq a har hat).trans (Function.update_self _ _ _)
      have hel : ∀ b ∈ l.ids, m'.heap.entry b = m.heap.entry b := fun b hb =>
        hin.entry_of_ne (fun hbr => hdisj b hb b hbr rfl) (fun he => hnew.2.1 (he ▸ hb))
          (fun he => hal (Option.some.inj he ▸ hb))
      refine ⟨m', some a, hm', hin.below rfl hval' (by simp) (by simp_all), ?_, ?_⟩
      · refine ⟨rfl, hin.dom_eq ▸ ha, by rw [hea, hk], by rw [hea, hv], ?_, ?_⟩ <;> rw [hea]
        · exact hl.congr (fun b _ hb => hin.dom_eq ▸ hb) hel
        · exact hs'
      · rintro ⟨hpa, hpl, hpr⟩
        exact ⟨by rw [hea, hpa], hpl.congr fun b hb => by rw [hel b hb], hpar' hpr⟩

/-- `insert` writes one link, and the parent of the inserted entry. -/
theorem insertAt_eq_some [LinearOrder K] (link : Link)
    (hclosed : ∀ b ∈ S, ∀ c, (m.heap.entry b).left = some c ∨ (m.heap.entry b).right = some c →
      c ∈ S)
    (hstart : ∀ c, m.val link = some c → c ∈ S) (hi : insertAt this n link parent m = some m') :
    ∃ X q, (X = link ∧ m.val link = none ∧ q = parent ∨
        ∃ b ∈ S, (X = .left b ∨ X = .right b) ∧ q = some b) ∧
      m' = (m.put X (some this)).put (.parent this) q := by
  induction n generalizing link parent with
  | zero =>
    simp only [insertAt, Option.bind_eq_bind, Option.bind_eq_some_iff] at hi
    obtain ⟨p, hp, hi⟩ := hi
    cases p with
    | none =>
      simp only [Option.bind_eq_some_iff] at hi
      obtain ⟨m₁, hm₁, hi⟩ := hi
      obtain ⟨-, rfl⟩ := set_eq_some_iff.mp hm₁
      obtain ⟨-, rfl⟩ := set_eq_some_iff.mp hi
      exact ⟨link, parent, Or.inl ⟨rfl, (get_eq_some_iff.mp hp).2, rfl⟩, rfl⟩
    | some a => cases hi
  | succ n ih =>
    simp only [insertAt, Option.bind_eq_bind, Option.bind_eq_some_iff] at hi
    obtain ⟨p, hp, hi⟩ := hi
    cases p with
    | none =>
      simp only [Option.bind_eq_some_iff] at hi
      obtain ⟨m₁, hm₁, hi⟩ := hi
      obtain ⟨-, rfl⟩ := set_eq_some_iff.mp hm₁
      obtain ⟨-, rfl⟩ := set_eq_some_iff.mp hi
      exact ⟨link, parent, Or.inl ⟨rfl, (get_eq_some_iff.mp hp).2, rfl⟩, rfl⟩
    | some a =>
      have ha := hstart a (get_eq_some_iff.mp hp).2
      simp only [Option.bind_eq_some_iff] at hi
      obtain ⟨e, -, e', -, hi⟩ := hi
      split_ifs at hi
      · obtain ⟨X, q, hX, hm'⟩ := ih (.left a) (fun c hc => hclosed a ha c (Or.inl hc)) hi
        refine ⟨X, q, Or.inr ?_, hm'⟩
        rcases hX with ⟨rfl, -, rfl⟩ | hX
        · exact ⟨a, ha, Or.inl rfl, rfl⟩
        · exact hX
      · obtain ⟨X, q, hX, hm'⟩ := ih (.right a) (fun c hc => hclosed a ha c (Or.inr hc)) hi
        refine ⟨X, q, Or.inr ?_, hm'⟩
        rcases hX with ⟨rfl, -, rfl⟩ | hX
        · exact ⟨a, ha, Or.inr rfl, rfl⟩
        · exact hX

end Map

namespace Entries

variable [LinearOrder K] {h : Entries K V} {p : Option ℕ} {t : SearchTree ℕ K V} {a : ℕ} {k : K}
  {v w : V}

/-- Writing the value of an entry. -/
theorem Shape.assign (hs : h.Shape p t) (hnodup : t.ids.Nodup) (hf : t.find k = some (a, w)) :
    (h.store a { h.entry a with value := v }).Shape p (t.assign k v) := by
  have hkeep : ∀ u : SearchTree ℕ K V, a ∉ u.ids → ∀ b ∈ u.ids,
      (h.store a { h.entry a with value := v }).entry b = h.entry b := by
    intro u hu b hb
    refine entry_store_of_ne ?_
    rintro rfl
    exact hu hb
  induction t generalizing p with
  | leaf => cases hf
  | node b k' v' l r ihl ihr =>
    obtain ⟨rfl, hb, hk, hv, hl, hr⟩ := hs
    rw [ids_node, List.nodup_cons, List.mem_append, not_or, List.nodup_append] at hnodup
    obtain ⟨⟨hbl, hbr⟩, hnl, hnr, hdisj⟩ := hnodup
    rw [SearchTree.find] at hf
    rw [SearchTree.assign]
    split_ifs at hf ⊢ with h1 h2
    · have ha := mem_ids_of_find hf
      have hne : b ≠ a := by
        rintro rfl
        exact hbl ha
      refine ⟨rfl, hb, ?_, ?_, ?_, ?_⟩ <;> rw [entry_store_of_ne hne]
      · exact hk
      · exact hv
      · exact ihl hl hnl hf
      · exact hr.congr (fun _ _ => id) (hkeep r fun har => hdisj a ha a har rfl)
    · have ha := mem_ids_of_find hf
      have hne : b ≠ a := by
        rintro rfl
        exact hbr ha
      refine ⟨rfl, hb, ?_, ?_, ?_, ?_⟩ <;> rw [entry_store_of_ne hne]
      · exact hk
      · exact hv
      · exact hl.congr (fun _ _ => id) (hkeep l fun hal => hdisj a hal a ha rfl)
      · exact ihr hr hnr hf
    · cases hf
      refine ⟨rfl, hb, ?_, ?_, ?_, ?_⟩ <;> rw [entry_store_self]
      · exact hk
      · exact hl.congr (fun _ _ => id) (hkeep l hbl)
      · exact hr.congr (fun _ _ => id) (hkeep r hbr)

theorem parented_assign : h.Parented p (t.assign k v) ↔ h.Parented p t := by
  induction t generalizing p with
  | leaf => rfl
  | node b k' v' l r ihl ihr =>
    rw [SearchTree.assign]
    split_ifs
    · exact and_congr_right fun _ => and_congr_left fun _ => ihl
    · exact and_congr_right fun _ => and_congr_right fun _ => ihr
    · rfl

end Entries

namespace Map

variable [LinearOrder K] {m m' : Map K V} {t : SearchTree ℕ K V} {a b : ℕ} {k : K} {v w : V}

/-- The map reaches the nodes of a search tree. -/
structure Represents (m : Map K V) (t : SearchTree ℕ K V) : Prop where
  shape : m.heap.Shape m.root t
  nodup : t.ids.Nodup
  ordered : t.Ordered

/-- What a change of the map to another tree keeps: the parent pointers, and the entries outside
of the new tree. -/
structure Updated (m m' : Map K V) (t t' : SearchTree ℕ K V) : Prop where
  represents : m'.Represents t'
  parented : m.heap.Parented none t → m'.heap.Parented none t'
  parentsIn : m.heap.ParentsIn t → m'.heap.ParentsIn t'
  outside : ∀ b, b ∉ t'.ids → m'.heap.load b = m.heap.load b

namespace Represents

theorem find_eq (h : m.Represents t) : m.find k = some ((t.find k).map Prod.fst) :=
  h.shape.findFrom (h.shape.size_le h.nodup)

theorem lookup_eq (h : m.Represents t) : m.lookup k = some ((t.find k).map Prod.snd) := by
  rw [lookup, h.find_eq]
  cases hf : t.find k with
  | none => rfl
  | some p =>
    obtain ⟨hp, -, hv⟩ := h.shape.entry_of_find hf
    simp [Entries.load_of_mem hp, hv]

theorem write (h : m.Represents t) (hf : t.find k = some (b, w)) :
    ∃ m', m.write b v = some m' ∧ Updated m m' t (t.assign k v) := by
  obtain ⟨hb, -, -⟩ := h.shape.entry_of_find hf
  have hparent : ∀ c, ((m.heap.store b { m.heap.entry b with value := v }).entry c).parent =
      (m.heap.entry c).parent := by
    intro c
    rcases eq_or_ne c b with rfl | hne
    · rw [Entries.entry_store_self]
    · rw [Entries.entry_store_of_ne hne]
  have hrep : Represents ⟨m.root, m.heap.store b { m.heap.entry b with value := v }⟩
      (t.assign k v) :=
    ⟨h.shape.assign h.nodup hf, by rw [ids_assign]; exact h.nodup, h.ordered.assign⟩
  refine ⟨_, by rw [Map.write, Entries.load_of_mem hb]; rfl, hrep, fun hp => ?_, fun hp => ?_, ?_⟩
  · exact Entries.parented_assign.mpr (hp.congr fun c _ => hparent c)
  · intro c hc d hd
    rw [ids_assign] at hc ⊢
    exact hp c hc d ((hparent c).symm.trans hd)
  · intro c hc
    rw [ids_assign] at hc
    have hne : c ≠ b := by
      rintro rfl
      exact hc (mem_ids_of_find hf)
    rw [Entries.load, Entries.load, Entries.entry_store_of_ne hne]
    rfl

/-- A new entry becomes a leaf of the tree. -/
theorem insert (h : m.Represents t) (hf : t.find k = none) (ha : a ∉ m.heap.dom) {m₁ : Map K V}
    (hm₁ : m₁ = ⟨m.root, m.heap.grow a ⟨k, v, none, none, none⟩⟩) :
    ∃ m', insertAt a m₁.fuel .root none m₁ = some m' ∧ Updated m m' t (t.insert a k v) := by
  have hat : a ∉ t.ids := fun hmem => ha (h.shape.mem_dom hmem)
  have hkeep : ∀ b, b ≠ a → m₁.heap.entry b = m.heap.entry b := by
    intro b hb
    rw [hm₁]
    exact Entries.entry_grow_of_ne hb
  have hids : ∀ b ∈ t.ids, m₁.heap.entry b = m.heap.entry b :=
    fun b hb => hkeep b fun he => hat (he ▸ hb)
  have hself : m₁.heap.entry a = ⟨k, v, none, none, none⟩ := by
    rw [hm₁]
    exact Entries.entry_grow_self
  have hdom : ∀ b, b ∈ m₁.heap.dom ↔ b = a ∨ b ∈ m.heap.dom := by
    intro b
    rw [hm₁]
    exact Entries.mem_grow
  have hs₁ : m₁.heap.Shape m₁.root t := by
    have hroot : m₁.root = m.root := by rw [hm₁]
    rw [hroot]
    exact h.shape.congr (fun b _ hb => (hdom b).mpr (Or.inr hb)) hids
  obtain ⟨m', p', hins, hin, hs', hpar'⟩ := insertAt_shape (k := k) (v := v) .root none
    m₁.fuel rfl hs₁ h.nodup ((hdom a).mpr (Or.inl rfl)) hat
    (by rw [hself]) (by rw [hself]) (by rw [hself]) (by rw [hself]) (by simp [Link.holder])
    (hs₁.size_le h.nodup)
  have hk : k ∉ t.keys := (find_eq_none_iff h.ordered).mp hf
  have hids' : ∀ b, b ∈ (t.insert a k v).ids ↔ b = a ∨ b ∈ t.ids := by
    intro b
    rw [ids_insert.mem_iff, List.mem_cons]
  refine ⟨m', hins, ⟨?_, ?_, h.ordered.insert hk⟩, fun hp => ?_, fun hp c hc d hd => ?_, ?_⟩
  · rw [hin.root_eq]
    exact hs'
  · rw [ids_insert.nodup_iff, List.nodup_cons]
    exact ⟨hat, h.nodup⟩
  · exact hpar' (hp.congr fun b hb => by rw [hids b hb])
  · obtain ⟨X, q, hX, rfl⟩ := insertAt_eq_some (S := {b | b ∈ t.ids}) .root
      (fun b hb c hc => hs₁.mem_child hb hc) (fun c hc => hs₁.mem_root hc) hins
    rw [hids']
    rcases eq_or_ne c a with rfl | hne
    · have hself : ((m₁.put X (some c)).put (.parent c) q).val (.parent c) = q := val_put_self
      have hq : q = some d := hself.symm.trans hd
      rcases hX with ⟨-, -, rfl⟩ | ⟨b, hb, -, rfl⟩
      · cases hq
      · cases hq
        exact Or.inr hb
    · have hparent : ((m₁.put X (some a)).heap.entry c).parent = (m₁.heap.entry c).parent := by
        rcases hX with ⟨rfl, -⟩ | ⟨b, hb, hX, -⟩
        · rfl
        · exact Side.parent_put ⟨b, hb, hX⟩
      rw [entry_put_of_ne (by simpa [Link.holder] using hne.symm), hparent, hkeep c hne] at hd
      exact Or.inr (hp c (((hids' c).mp hc).resolve_left hne) d hd)
  · intro b hb
    rw [hids', not_or] at hb
    rw [Entries.load, Entries.load, hin.dom_eq, hin.entry_of_ne hb.2 hb.1 (by simp [Link.holder]),
      hkeep b hb.1]
    simp only [hdom, hb.1, false_or]

theorem ref_of_find (h : m.Represents t) (hf : t.find k = some (b, w)) :
    m.ref k v a = some (b, m) := by
  simp [ref, h.find_eq, hf]

theorem ref_of_find_eq_none (h : m.Represents t) (hf : t.find k = none) (ha : a ∉ m.heap.dom) :
    ∃ m', m.ref k v a = some (a, m') ∧ Updated m m' t (t.insert a k v) := by
  obtain ⟨m', hins, hup⟩ := h.insert (v := v) hf ha rfl
  refine ⟨m', ?_, hup⟩
  simp [ref, h.find_eq, hf, Entries.new, ha, hins]

theorem index_of_find (h : m.Represents t) (hf : t.find k = some (b, w)) :
    m.index k v a = m.write b v := by
  obtain ⟨hb, -, -⟩ := h.shape.entry_of_find hf
  simp [Map.index, Map.write, h.find_eq, hf, Entries.load_of_mem hb]

theorem index_of_find_eq_none (h : m.Represents t) (hf : t.find k = none) (ha : a ∉ m.heap.dom) :
    ∃ m', m.index k v a = some m' ∧ Updated m m' t (t.insert a k v) := by
  obtain ⟨m', hins, hup⟩ := h.insert (v := v) hf ha rfl
  refine ⟨m', ?_, hup⟩
  simp [Map.index, h.find_eq, hf, Entries.new, ha, hins]

/-- `operator[]` acts on the tree, and leaves all other entries alone. -/
theorem index (h : m.Represents t) (hi : m.index k v a = some m') :
    ∃ t', m'.Represents t' ∧
      (m.heap.Parented none t → m'.heap.Parented none t') ∧
      (m.heap.ParentsIn t → m'.heap.ParentsIn t') ∧
      (∀ j, j ≠ k → t'.find j = t.find j) ∧ (t'.find k).map Prod.snd = some v ∧
      (∀ b ∈ t'.ids, b ∈ t.ids ∨ b = a ∧ a ∉ m.heap.dom) ∧
      (∀ b, b ∉ t'.ids → m'.heap.load b = m.heap.load b) := by
  cases hf : t.find k with
  | some c =>
    obtain ⟨b, w⟩ := c
    obtain ⟨m₁, hm₁, hup⟩ := h.write (v := v) hf
    rw [h.index_of_find hf, hm₁] at hi
    cases hi
    refine ⟨t.assign k v, hup.represents, hup.parented, hup.parentsIn,
      fun j hj => find_assign_of_ne hj, find_assign_self (by rw [hf]; rfl), ?_, hup.outside⟩
    intro c hc
    rw [ids_assign] at hc
    exact Or.inl hc
  | none =>
    have ha : a ∉ m.heap.dom := by
      intro ha
      simp [Map.index, h.find_eq, hf, Entries.new, ha] at hi
    obtain ⟨m₁, hm₁, hup⟩ := h.index_of_find_eq_none (v := v) hf ha
    rw [hm₁] at hi
    cases hi
    have hk : k ∉ t.keys := (find_eq_none_iff h.ordered).mp hf
    refine ⟨t.insert a k v, hup.represents, hup.parented, hup.parentsIn,
      fun j hj => find_insert_of_ne hj, by rw [find_insert_self h.ordered hk]; rfl, ?_,
      hup.outside⟩
    intro b hb
    rcases List.mem_cons.mp (ids_insert.mem_iff.mp hb) with rfl | hb
    · exact Or.inr ⟨rfl, ha⟩
    · exact Or.inl hb

theorem exists_index (h : m.Represents t) (ha : a ∉ m.heap.dom) :
    ∃ m', m.index k v a = some m' := by
  cases hf : t.find k with
  | some c =>
    obtain ⟨m', hm', -⟩ := h.write (v := v) hf
    exact ⟨m', by rw [h.index_of_find hf, hm']⟩
  | none =>
    obtain ⟨m', hm', -⟩ := h.index_of_find_eq_none (v := v) hf ha
    exact ⟨m', hm'⟩

end Represents

end Map

end Koerix
