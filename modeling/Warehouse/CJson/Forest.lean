import Warehouse.CJson.HeapState
import Warehouse.Machine.Chain
import Mathlib.Data.List.Perm.Basic
import Mathlib.Data.List.Flatten

/-!
# The forest in memory

What the memory holds, cell by cell: each item with its fields, its strings and the chain of its
children.  Every item is a root or the child of one item; every live block is an item, a string of
one item, or a string of the caller.

* `Label`, `Record`      an item without and with the addresses of its children;
* `Stored`, `Holds`      the record in memory; the whole memory;
* `Holds.reshape`        the children of one item changed, by writing pointers;
* `Holds.relabel`        the fields of one item changed;
* `Holds.extend`, `Holds.remove`   new items, and items released.
-/

namespace CJSON.Heap
open Machine Memory Text Numeric

/-! ## records -/

/-- an item without its pointers to other items; a string is there with its address -/
structure Label where
  kind : Kind
  stringIsConst : Bool
  valuestring : Option (ℕ × CString)
  valueint : ℤ
  valuedouble : Binary64
  string : Option (ℕ × CString)
deriving DecidableEq

namespace Label

/-- the fields in memory -/
def fields (l : Label) : Fields where
  kind := l.kind
  isReference := false
  stringIsConst := l.stringIsConst
  valuestring := l.valuestring.map Prod.fst
  valueint := l.valueint
  valuedouble := l.valuedouble
  string := l.string.map Prod.fst

def texts (l : Label) : List (ℕ × CString) := l.valuestring.toList ++ l.string.toList

/-- the strings that go with the item -/
def owned (l : Label) : List ℕ :=
  (l.valuestring.toList ++ if l.stringIsConst then [] else l.string.toList).map Prod.fst

/-- the name belongs to the caller -/
def borrowed (l : Label) : List ℕ :=
  (if l.stringIsConst then l.string.toList else []).map Prod.fst

theorem mem_of_texts {l : Label} {e : ℕ × CString} (h : e ∈ l.texts) :
    e.1 ∈ l.owned ∨ e.1 ∈ l.borrowed := by
  unfold texts at h
  unfold owned borrowed
  rcases List.mem_append.mp h with h | h
  · exact Or.inl (List.mem_map_of_mem (List.mem_append_left _ h))
  · cases l.stringIsConst with
    | false => exact Or.inl (List.mem_map_of_mem (List.mem_append_right _ h))
    | true => exact Or.inr (List.mem_map_of_mem h)

theorem texts_of_owned {l : Label} {a : ℕ} (h : a ∈ l.owned) : ∃ e ∈ l.texts, e.1 = a := by
  unfold owned at h
  obtain ⟨e, he, rfl⟩ := List.mem_map.mp h
  refine ⟨e, ?_, rfl⟩
  rcases List.mem_append.mp he with he | he
  · exact List.mem_append_left _ he
  · split_ifs at he
    · cases he
    · exact List.mem_append_right _ he

end Label

/-- an item, and the addresses of its children -/
structure Record where
  address : ℕ
  label : Label
  kids : List ℕ

/-- the blocks that are released with an item -/
def Record.owned (r : Record) : List ℕ := r.address :: r.label.owned

/-- the blocks of a list of items -/
def owned (R : List Record) : List ℕ := R.flatMap Record.owned

/-- the children of a list of items -/
def kids (R : List Record) : List ℕ := R.flatMap Record.kids

/-- the item is in memory, and its children are chained -/
structure Stored (m : Memory Block) (r : Record) : Prop where
  fields : fieldsAt m r.address = some r.label.fields
  child : linkAt .child m r.address = r.kids.head?
  chain : Chain (linkAt .next m) (linkAt .prev m) r.kids
  texts : ∀ e ∈ r.label.texts, textAt m e.1 = some e.2

/-- the memory holds these items, of which some are roots, beside the strings `S` of the caller -/
structure Holds (S : ℕ → Option CString) (m : Memory Block) (R : List Record) (roots : List ℕ) : Prop where
  nodup : (owned R).Nodup
  stored : ∀ r ∈ R, Stored m r
  parents : (roots ++ kids R).Perm (R.map Record.address)
  single : ∀ a ∈ roots, linkAt .next m a = none ∧ linkAt .prev m a = none
  live : ∀ a, m.block a ≠ none ↔ a ∈ owned R ∨ (S a).isSome = true
  caller : ∀ a, (S a).isSome = true → textAt m a = S a ∧ a ∉ owned R
  borrowed : ∀ r ∈ R, ∀ a ∈ r.label.borrowed, (S a).isSome = true

variable {S : ℕ → Option CString} {m m' : Memory Block} {R R' R₁ R₂ : List Record}
  {roots roots' roots₁ roots₂ : List ℕ} {r : Record} {a p : ℕ} {lab lab' : Label}
  {ks ks' : List ℕ}

@[simp] theorem owned_cons (r : Record) (R : List Record) : owned (r :: R) = r.owned ++ owned R :=
  List.flatMap_cons ..

@[simp] theorem owned_append (R R' : List Record) : owned (R ++ R') = owned R ++ owned R' :=
  List.flatMap_append ..

@[simp] theorem kids_cons (r : Record) (R : List Record) : kids (r :: R) = r.kids ++ kids R :=
  List.flatMap_cons ..

@[simp] theorem kids_append (R R' : List Record) : kids (R ++ R') = kids R ++ kids R' :=
  List.flatMap_append ..

theorem owned_perm (h : R.Perm R') : (owned R).Perm (owned R') := h.flatMap_right _

theorem kids_perm (h : R.Perm R') : (kids R).Perm (kids R') := h.flatMap_right _

theorem mem_owned (hr : r ∈ R) (ha : a ∈ r.owned) : a ∈ owned R :=
  List.mem_flatMap.mpr ⟨r, hr, ha⟩

theorem address_mem_owned (hr : r ∈ R) : r.address ∈ owned R :=
  mem_owned hr (List.mem_cons_self ..)

theorem addresses_sublist (R : List Record) : (R.map Record.address).Sublist (owned R) := by
  induction R with
  | nil => exact List.Sublist.refl []
  | cons r R ih =>
    rw [List.map_cons, owned_cons]
    exact List.Sublist.cons_cons _ (ih.trans (List.sublist_append_right ..))

/-! ## memory -/

theorem Stored.isItem (h : Stored m r) : IsItem m r.address := isItem_of_fields h.fields

theorem block_ne_none_iff : m.block a ≠ none ↔
    (fieldsAt m a).isSome = true ∨ (textAt m a).isSome = true := by
  unfold fieldsAt textAt itemAt
  cases m.block a with
  | none => simp
  | some b => cases b <;> simp

theorem textAt_of_isItem (h : IsItem m a) : textAt m a = none := by
  obtain ⟨c, hc⟩ := Option.isSome_iff_exists.mp h
  unfold textAt
  rw [block_of_item hc]

theorem linkAt_congr (l : Link) (h : m'.block a = m.block a) : linkAt l m' a = linkAt l m a := by
  unfold linkAt
  rw [itemAt_congr h]

theorem fieldsAt_congr (h : m'.block a = m.block a) : fieldsAt m' a = fieldsAt m a := by
  unfold fieldsAt
  rw [itemAt_congr h]

/-- an item stays as long as its blocks and those of its children do -/
theorem Stored.congr (h : Stored m r) (hown : ∀ a ∈ r.owned, m'.block a = m.block a)
    (hkids : ∀ a ∈ r.kids, m'.block a = m.block a)
    (hborrowed : ∀ a ∈ r.label.borrowed, m'.block a = m.block a) : Stored m' r where
  fields := (fieldsAt_congr (hown _ (List.mem_cons_self ..))).trans h.fields
  child := (linkAt_congr _ (hown _ (List.mem_cons_self ..))).trans h.child
  chain := h.chain.congr (fun a ha => linkAt_congr _ (hkids a ha))
    (fun a ha => linkAt_congr _ (hkids a ha))
  texts := by
    intro e he
    refine (textAt_congr ?_).trans (h.texts e he)
    rcases Label.mem_of_texts he with ho | hb
    · exact hown _ (List.mem_cons_of_mem _ ho)
    · exact hborrowed _ hb

theorem Stored.live (h : Stored m r) (ha : a ∈ r.owned) : m.block a ≠ none := by
  rcases List.mem_cons.mp ha with rfl | ha
  · rw [block_ne_none_iff, h.fields]
    exact Or.inl rfl
  · obtain ⟨e, he, rfl⟩ := Label.texts_of_owned ha
    rw [block_ne_none_iff, h.texts e he]
    exact Or.inr rfl

namespace Holds

/-- the order of the items does not matter -/
theorem perm (h : Holds S m R roots) (hR : R.Perm R') (hroots : roots.Perm roots') :
    Holds S m R' roots' where
  nodup := (owned_perm hR).nodup_iff.mp h.nodup
  stored := fun r hr => h.stored r (hR.mem_iff.mpr hr)
  parents := (hroots.append (kids_perm hR)).symm.trans (h.parents.trans (hR.map _))
  single := fun a ha => h.single a (hroots.mem_iff.mpr ha)
  live := fun a => (h.live a).trans (or_congr_left (owned_perm hR).mem_iff)
  caller := fun a ha =>
    ⟨(h.caller a ha).1, fun ho => (h.caller a ha).2 ((owned_perm hR).mem_iff.mpr ho)⟩
  borrowed := fun r hr => h.borrowed r (hR.mem_iff.mpr hr)

/-- every item is a root or the child of one item only -/
theorem parents_nodup (h : Holds S m R roots) : (roots ++ kids R).Nodup :=
  h.parents.nodup_iff.mpr (h.nodup.sublist (addresses_sublist R))

theorem isItem_of_mem (h : Holds S m R roots) (ha : a ∈ roots ++ kids R) : IsItem m a := by
  obtain ⟨r, hr, rfl⟩ := List.mem_map.mp (h.parents.mem_iff.mp ha)
  exact (h.stored r hr).isItem

theorem head (h : Holds S m (r :: R) roots) : Stored m r := h.stored r (List.mem_cons_self ..)

/-- **Other children for an item.**  Only pointers of its old and new children and its own pointer
to the first of them are written; the roots and the children exchange some items. -/
theorem reshape (h : Holds S m (⟨p, lab, ks⟩ :: R) roots) (hf : fieldsAt m' = fieldsAt m)
    (ht : textAt m' = textAt m)
    (hchild : linkAt .child m' = Function.update (linkAt .child m) p ks'.head?)
    (hchain : Chain (linkAt .next m') (linkAt .prev m') ks')
    (hother : ∀ a, a ∉ ks → a ∉ ks' →
      linkAt .next m' a = linkAt .next m a ∧ linkAt .prev m' a = linkAt .prev m a)
    (hparents : (roots' ++ ks').Perm (roots ++ ks))
    (hsingle : ∀ a ∈ roots', a ∈ ks → linkAt .next m' a = none ∧ linkAt .prev m' a = none) :
    Holds S m' (⟨p, lab, ks'⟩ :: R) roots' := by
  have hnodup := h.nodup
  rw [owned_cons] at hnodup
  have hpown : p ∉ owned R := fun hp =>
    (List.nodup_append.mp hnodup).2.2 p (List.mem_cons_self ..) p hp rfl
  have hpar := h.parents_nodup
  rw [kids_cons, ← List.append_assoc] at hpar
  have hdisj : ∀ a ∈ kids R, a ∉ ks ∧ a ∉ ks' := by
    intro a ha
    have ha' : a ∉ roots ++ ks := fun hr => (List.nodup_append.mp hpar).2.2 a hr a ha rfl
    exact ⟨fun hk => ha' (List.mem_append_right _ hk),
      fun hk => ha' (hparents.mem_iff.mp (List.mem_append_right _ hk))⟩
  refine ⟨h.nodup, ?_, ?_, ?_, ?_, ?_, ?_⟩
  · intro r hr
    rcases List.mem_cons.mp hr with rfl | hr
    · refine ⟨hf ▸ h.head.fields, ?_, hchain, ht ▸ h.head.texts⟩
      show linkAt .child m' p = ks'.head?
      rw [hchild, Function.update_self]
    · have hst := h.stored r (List.mem_cons_of_mem _ hr)
      have hk : ∀ a ∈ r.kids, a ∉ ks ∧ a ∉ ks' := fun a ha =>
        hdisj a (List.mem_flatMap.mpr ⟨r, hr, ha⟩)
      refine ⟨hf ▸ hst.fields, ?_, ?_, ht ▸ hst.texts⟩
      · rw [hchild, Function.update_of_ne, hst.child]
        exact fun hp => hpown (hp ▸ address_mem_owned hr)
      · exact hst.chain.congr (fun a ha => (hother a (hk a ha).1 (hk a ha).2).1)
          (fun a ha => (hother a (hk a ha).1 (hk a ha).2).2)
  · rw [kids_cons, ← List.append_assoc]
    refine (hparents.append_right (kids R)).trans ?_
    have hp := h.parents
    rw [kids_cons, ← List.append_assoc] at hp
    exact hp
  · intro a ha
    by_cases hk : a ∈ ks
    · exact hsingle a ha hk
    · have hroot : a ∈ roots := by
        rcases List.mem_append.mp (hparents.mem_iff.mp (List.mem_append_left ks' ha)) with h | h
        · exact h
        · exact absurd h hk
      have hnew : a ∉ ks' := by
        have hn : (roots' ++ ks').Nodup :=
          hparents.nodup_iff.mpr (List.nodup_append.mp hpar).1
        exact fun hk' => (List.nodup_append.mp hn).2.2 a ha a hk' rfl
      rw [(hother a hk hnew).1, (hother a hk hnew).2]
      exact h.single a hroot
  · intro a
    rw [block_ne_none_iff, hf, ht, ← block_ne_none_iff]
    exact h.live a
  · exact fun a ha => ht ▸ h.caller a ha
  · intro r hr
    rcases List.mem_cons.mp hr with rfl | hr
    · exact h.borrowed ⟨p, lab, ks⟩ (List.mem_cons_self ..)
    · exact h.borrowed r (List.mem_cons_of_mem _ hr)

/-- new items beside those that are there -/
theorem extend (h : Holds S m R roots) (R₁ : List Record) (roots₁ : List ℕ) (hb : ∀ a, a ∉ owned R₁ → m'.block a = m.block a)
    (hfresh : ∀ a ∈ owned R₁, m.block a = none) (hd : (owned R₁).Nodup)
    (hst : ∀ r ∈ R₁, Stored m' r) (hp : (roots₁ ++ kids R₁).Perm (R₁.map Record.address))
    (hsingle : ∀ a ∈ roots₁, linkAt .next m' a = none ∧ linkAt .prev m' a = none)
    (hbor : ∀ r ∈ R₁, ∀ a ∈ r.label.borrowed, (S a).isSome = true) :
    Holds S m' (R₁ ++ R) (roots₁ ++ roots) := by
  have hold : ∀ a, a ∈ owned R ∨ (S a).isSome = true → a ∉ owned R₁ ∧ m'.block a = m.block a := by
    intro a ha
    have hn : a ∉ owned R₁ := fun h1 => (h.live a).mpr ha (hfresh a h1)
    exact ⟨hn, hb a hn⟩
  have hitem : ∀ a ∈ roots ++ kids R, m'.block a = m.block a := by
    intro a ha
    obtain ⟨r, hr, rfl⟩ := List.mem_map.mp (h.parents.mem_iff.mp ha)
    exact (hold _ (Or.inl (address_mem_owned hr))).2
  refine ⟨?_, ?_, ?_, ?_, ?_, ?_, ?_⟩
  · rw [owned_append]
    refine List.nodup_append.mpr ⟨hd, h.nodup, fun a ha b hb' hab => ?_⟩
    exact (hold b (Or.inl hb')).1 (hab ▸ ha)
  · intro r hr
    rcases List.mem_append.mp hr with hr | hr
    · exact hst r hr
    · refine (h.stored r hr).congr (fun a ha => (hold a (Or.inl (mem_owned hr ha))).2) ?_ ?_
      · exact fun a ha => hitem a (List.mem_append_right _ (List.mem_flatMap.mpr ⟨r, hr, ha⟩))
      · exact fun a ha => (hold a (Or.inr (h.borrowed r hr a ha))).2
  · rw [kids_append, List.map_append]
    refine List.Perm.trans ?_ (hp.append h.parents)
    simp only [List.append_assoc]
    refine List.Perm.append_left _ ?_
    rw [← List.append_assoc, ← List.append_assoc]
    exact List.perm_append_comm.append_right _
  · intro a ha
    rcases List.mem_append.mp ha with ha | ha
    · exact hsingle a ha
    · have hsame := hitem a (List.mem_append_left _ ha)
      rw [linkAt_congr .next hsame, linkAt_congr .prev hsame]
      exact h.single a ha
  · intro a
    rw [owned_append, List.mem_append]
    by_cases h1 : a ∈ owned R₁
    · obtain ⟨r, hr, ha⟩ := List.mem_flatMap.mp h1
      exact iff_of_true ((hst r hr).live ha) (Or.inl (Or.inl h1))
    · rw [hb a h1, h.live a]
      exact or_congr_left (or_iff_right h1).symm
  · intro a ha
    obtain ⟨hn, hsame⟩ := hold a (Or.inr ha)
    rw [textAt_congr hsame, owned_append, List.mem_append]
    exact ⟨(h.caller a ha).1, fun ho => ho.elim hn (h.caller a ha).2⟩
  · intro r hr
    rcases List.mem_append.mp hr with hr | hr
    · exact hbor r hr
    · exact h.borrowed r hr

/-- some items are released, with their strings; the others keep their children -/
theorem remove (R₁ : List Record) (roots₁ : List ℕ) (h : Holds S m (R₁ ++ R) (roots₁ ++ roots))
    (hb : Released m m' (owned R₁))
    (hp : (roots ++ kids R).Perm (R.map Record.address)) : Holds S m' R roots := by
  have hnodup := h.nodup
  rw [owned_append] at hnodup
  obtain ⟨-, hdR, hdisj⟩ := List.nodup_append.mp hnodup
  have hown : ∀ a ∈ owned R, m'.block a = m.block a := fun a ha =>
    (hb a).trans (if_neg fun h1 => hdisj a h1 a ha rfl)
  have hS : ∀ a, (S a).isSome = true → m'.block a = m.block a := fun a ha =>
    (hb a).trans (if_neg fun h1 => (h.caller a ha).2 (by simp [h1]))
  have hitem : ∀ a ∈ roots ++ kids R, m'.block a = m.block a := by
    intro a ha
    obtain ⟨r, hr, rfl⟩ := List.mem_map.mp (hp.mem_iff.mp ha)
    exact hown _ (address_mem_owned hr)
  refine ⟨hdR, ?_, hp, ?_, ?_, ?_, ?_⟩
  · intro r hr
    refine (h.stored r (List.mem_append_right _ hr)).congr
      (fun a ha => hown a (mem_owned hr ha)) ?_ ?_
    · exact fun a ha => hitem a (List.mem_append_right _ (List.mem_flatMap.mpr ⟨r, hr, ha⟩))
    · exact fun a ha => hS a (h.borrowed r (List.mem_append_right _ hr) a ha)
  · intro a ha
    have hsame := hitem a (List.mem_append_left _ ha)
    rw [linkAt_congr .next hsame, linkAt_congr .prev hsame]
    exact h.single a (List.mem_append_right _ ha)
  · intro a
    by_cases h1 : a ∈ owned R₁
    · refine iff_of_false (fun hne => hne ((hb a).trans (if_pos h1))) ?_
      rintro (ho | hs)
      · exact hdisj a h1 a ho rfl
      · exact (h.caller a hs).2 (by simp [h1])
    · rw [hb a, if_neg h1, h.live a, owned_append, List.mem_append]
      exact or_congr_left (or_iff_right h1)
  · intro a ha
    rw [textAt_congr (hS a ha)]
    exact ⟨(h.caller a ha).1, fun ho => (h.caller a ha).2 (by simp [ho])⟩
  · exact fun r hr => h.borrowed r (List.mem_append_right _ hr)

/-- **Other fields for an item.**  The strings it does not keep are released, and those that it gets
were free. -/
theorem relabel (h : Holds S m (⟨p, lab, ks⟩ :: R) roots) (lab' : Label)
    (hf : fieldsAt m' = Function.update (fieldsAt m) p (some lab'.fields))
    (hl : ∀ l, linkAt l m' = linkAt l m) (ht : ∀ e ∈ lab'.texts, textAt m' e.1 = some e.2)
    (hkeep : ∀ a, a ∉ lab.owned → a ∉ lab'.owned → textAt m' a = textAt m a)
    (hgone : ∀ a ∈ lab.owned, a ∉ lab'.owned → textAt m' a = none)
    (hfresh : ∀ a ∈ lab'.owned, a ∉ lab.owned → m.block a = none) (hd : lab'.owned.Nodup)
    (hbor : ∀ a ∈ lab'.borrowed, (S a).isSome = true) : Holds S m' (⟨p, lab', ks⟩ :: R) roots := by
  have hnodup := h.nodup
  rw [owned_cons] at hnodup
  obtain ⟨hdp, hdR, hdisj⟩ := List.nodup_append.mp hnodup
  have hp : p ∉ lab.owned := (List.nodup_cons.mp hdp).1
  have hplive : m.block p ≠ none := h.head.live (List.mem_cons_self ..)
  have hold : ∀ a, a ∈ owned R ∨ (S a).isSome = true → a ≠ p ∧ a ∉ lab.owned ∧ a ∉ lab'.owned := by
    intro a ha
    have hmine : a ∉ (⟨p, lab, ks⟩ : Record).owned := by
      rcases ha with ha | ha
      · exact fun hm => hdisj a hm a ha rfl
      · exact fun hm => (h.caller a ha).2 (mem_owned (List.mem_cons_self ..) hm)
    have hlive : m.block a ≠ none := (h.live a).mpr (by
      rw [owned_cons, List.mem_append]
      exact ha.imp_left Or.inr)
    have hnot : a ∉ lab.owned := fun hm => hmine (List.mem_cons_of_mem _ hm)
    exact ⟨fun hap => hmine (hap ▸ List.mem_cons_self ..), hnot,
      fun hm => hlive (hfresh a hm hnot)⟩
  refine ⟨?_, ?_, h.parents, ?_, ?_, ?_, ?_⟩
  · rw [owned_cons]
    refine List.nodup_append.mpr ⟨List.nodup_cons.mpr ⟨fun hm => ?_, hd⟩, hdR, ?_⟩
    · exact hplive (hfresh p hm hp)
    · intro a ha b hb hab
      subst hab
      obtain ⟨hne, -, hnot⟩ := hold a (Or.inl hb)
      rcases List.mem_cons.mp ha with ha | ha
      · exact hne ha
      · exact hnot ha
  · intro r hr
    rcases List.mem_cons.mp hr with rfl | hr
    · refine ⟨?_, hl _ ▸ h.head.child, by rw [hl, hl]; exact h.head.chain, ht⟩
      show fieldsAt m' p = some lab'.fields
      rw [hf, Function.update_self]
    · have hst := h.stored r (List.mem_cons_of_mem _ hr)
      refine ⟨?_, hl _ ▸ hst.child, by rw [hl, hl]; exact hst.chain, ?_⟩
      · rw [hf, Function.update_of_ne (hold _ (Or.inl (address_mem_owned hr))).1, hst.fields]
      · intro e he
        have hknown : e.1 ∈ owned R ∨ (S e.1).isSome = true := (Label.mem_of_texts he).imp
          (fun ho => mem_owned hr (List.mem_cons_of_mem _ ho))
          (fun hb => h.borrowed r (List.mem_cons_of_mem _ hr) _ hb)
        rw [hkeep _ (hold _ hknown).2.1 (hold _ hknown).2.2, hst.texts e he]
  · intro a ha
    rw [hl, hl]
    exact h.single a ha
  · intro a
    rw [block_ne_none_iff, hf, owned_cons, List.mem_append]
    by_cases hap : a = p
    · subst hap
      rw [Function.update_self]
      exact iff_of_true (Or.inl rfl) (Or.inl (Or.inl (List.mem_cons_self ..)))
    rw [Function.update_of_ne hap]
    have hmine : a ∈ (⟨p, lab', ks⟩ : Record).owned ↔ a ∈ lab'.owned := by
      show a ∈ p :: lab'.owned ↔ _
      rw [List.mem_cons, or_iff_right hap]
    rw [hmine]
    by_cases hnew : a ∈ lab'.owned
    · refine iff_of_true (Or.inr ?_) (Or.inl (Or.inl hnew))
      obtain ⟨e, he, rfl⟩ := Label.texts_of_owned hnew
      rw [ht e he]
      rfl
    rw [or_iff_right hnew]
    by_cases hmine : a ∈ lab.owned
    · rw [hgone a hmine hnew]
      have hitem : fieldsAt m a = none := by
        obtain ⟨e, he, rfl⟩ := Label.texts_of_owned hmine
        have hte : textAt m e.1 = some e.2 := h.head.texts e he
        by_contra hne
        obtain ⟨f, hfe⟩ := Option.ne_none_iff_exists'.mp hne
        rw [textAt_of_isItem (isItem_of_fields hfe)] at hte
        cases hte
      rw [hitem]
      refine iff_of_false (by simp) ?_
      intro hknown
      exact (hold a hknown).2.1 hmine
    · rw [hkeep a hmine hnew, ← block_ne_none_iff, h.live a, owned_cons, List.mem_append]
      refine or_congr_left (or_iff_right fun hm => ?_)
      rcases List.mem_cons.mp hm with h | h
      · exact hap h
      · exact hmine h
  · intro a ha
    obtain ⟨hne, hnot, hnew⟩ := hold a (Or.inr ha)
    rw [hkeep a hnot hnew]
    refine ⟨(h.caller a ha).1, fun ho => ?_⟩
    rw [owned_cons] at ho
    rcases List.mem_append.mp ho with ho | ho
    · exact (List.mem_cons.mp ho).elim hne hnew
    · refine (h.caller a ha).2 ?_
      rw [owned_cons]
      exact List.mem_append_right _ ho
  · intro r hr
    rcases List.mem_cons.mp hr with rfl | hr
    · exact hbor
    · exact h.borrowed r (List.mem_cons_of_mem _ hr)

end Holds

end CJSON.Heap
