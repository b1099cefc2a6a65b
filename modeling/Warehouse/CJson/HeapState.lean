import Warehouse.CJson.Heap

/-!
# Pointers of the items in memory

* `itemAt`, `fieldsAt`, `linkAt`, `textAt`   what lies at an address;
* `putLink`, `putFields`   one pointer or the fields of one item rewritten; `linkAt_putLink` ..;
* `setNext_eq` .., `next_eq` ..   an access to an item that is there.
-/

namespace CJSON.Heap
open Machine Memory Text

/-- the three pointers of an item -/
inductive Link
  | next | prev | child
deriving DecidableEq

def Item.link : Link → Item → Option ℕ
  | .next, c => c.next
  | .prev, c => c.prev
  | .child, c => c.child

def Item.setLink (p : Option ℕ) : Link → Item → Item
  | .next, c => { c with next := p }
  | .prev, c => { c with prev := p }
  | .child, c => { c with child := p }

def itemAt (m : Memory Block) (a : ℕ) : Option Item :=
  match m.block a with
  | some (.item c) => some c
  | _ => none

def textAt (m : Memory Block) (a : ℕ) : Option CString :=
  match m.block a with
  | some (.text s) => some s
  | _ => none

def fieldsAt (m : Memory Block) (a : ℕ) : Option Fields := (itemAt m a).map Item.fields

def linkAt (l : Link) (m : Memory Block) (a : ℕ) : Option ℕ := (itemAt m a).bind (Item.link l)

/-- an item is live at the address -/
def IsItem (m : Memory Block) (a : ℕ) : Prop := (itemAt m a).isSome = true

/-- an item rewritten -/
def edit (m : Memory Block) (a : ℕ) (f : Item → Item) : Memory Block where
  block := fun b => if b = a then ((itemAt m a).map fun c => .item (f c)).or (m.block a) else m.block b
  answers := m.answers

def putLink (m : Memory Block) (l : Link) (a : ℕ) (p : Option ℕ) : Memory Block :=
  edit m a (Item.setLink p l)

def putFields (m : Memory Block) (a : ℕ) (f : Fields) : Memory Block :=
  edit m a fun c => { c with fields := f }

variable {m m' : Memory Block} {a b : ℕ} {p : Option ℕ} {f : Fields} {c : Item} {s : CString}

/-! ## what lies at an address -/

theorem block_of_item (h : itemAt m a = some c) : m.block a = some (.item c) := by
  unfold itemAt at h
  split at h
  · next c' hc => exact hc.trans (congrArg (fun c => some (Block.item c)) (Option.some.inj h))
  · cases h

theorem item_of_block (h : m.block a = some (.item c)) : itemAt m a = some c := by
  unfold itemAt
  rw [h]

theorem block_of_text (h : textAt m a = some s) : m.block a = some (.text s) := by
  unfold textAt at h
  split at h
  · next s' hs => exact hs.trans (congrArg (fun s => some (Block.text s)) (Option.some.inj h))
  · cases h

theorem text_of_block (h : m.block a = some (.text s)) : textAt m a = some s := by
  unfold textAt
  rw [h]

theorem itemAt_congr (h : m'.block a = m.block a) : itemAt m' a = itemAt m a := by
  unfold itemAt
  rw [h]

theorem textAt_congr (h : m'.block a = m.block a) : textAt m' a = textAt m a := by
  unfold textAt
  rw [h]

theorem isItem_of_fields (h : fieldsAt m a = some f) : IsItem m a := by
  obtain ⟨c, hc, -⟩ := Option.map_eq_some_iff.mp h
  exact Option.isSome_iff_exists.mpr ⟨c, hc⟩

/-! ## an item rewritten -/

theorem itemAt_edit (m : Memory Block) (a : ℕ) (f : Item → Item) (b : ℕ) :
    itemAt (edit m a f) b = if b = a then (itemAt m a).map f else itemAt m b := by
  split_ifs with hb
  · subst hb
    cases h : itemAt m b with
    | none =>
      refine (itemAt_congr (m := m) ?_).trans h
      show (if b = b then _ else _) = _
      rw [if_pos rfl, h]
      rfl
    | some c =>
      refine item_of_block ?_
      show (if b = b then _ else _) = _
      rw [if_pos rfl, h]
      rfl
  · exact itemAt_congr (if_neg hb)

@[simp] theorem textAt_edit (m : Memory Block) (a : ℕ) (f : Item → Item) :
    textAt (edit m a f) = textAt m := by
  funext b
  by_cases hb : b = a
  · subst hb
    cases h : itemAt m b with
    | none =>
      refine textAt_congr ?_
      show (if b = b then _ else _) = _
      rw [if_pos rfl, h]
      rfl
    | some c =>
      have hblock : (edit m b f).block b = some (.item (f c)) := by
        show (if b = b then _ else _) = _
        rw [if_pos rfl, h]
        rfl
      unfold textAt
      rw [hblock, block_of_item h]
  · exact textAt_congr (if_neg hb)

/-- what the rewriting keeps of an item -/
theorem bind_itemAt_edit {γ : Type} {g : Item → Option γ} {f : Item → Item}
    (hg : ∀ c, g (f c) = g c) (m : Memory Block) (a b : ℕ) :
    (itemAt (edit m a f) b).bind g = (itemAt m b).bind g := by
  rw [itemAt_edit]
  split_ifs with hb
  · subst hb
    cases itemAt m b with
    | none => rfl
    | some c => exact hg c
  · rfl

@[simp] theorem isItem_edit {f : Item → Item} : IsItem (edit m a f) b ↔ IsItem m b := by
  unfold IsItem
  rw [itemAt_edit]
  split_ifs with hb
  · rw [hb, Option.isSome_map]
  · rfl

theorem link_setLink (l l' : Link) (p : Option ℕ) (c : Item) :
    (c.setLink p l).link l' = if l' = l then p else c.link l' := by
  cases l <;> cases l' <;> rfl

theorem linkAt_putLink (h : IsItem m a) (l l' : Link) : linkAt l' (putLink m l a p) =
    if l' = l then Function.update (linkAt l m) a p else linkAt l' m := by
  funext b
  obtain ⟨c, hc⟩ := Option.isSome_iff_exists.mp h
  have hat : linkAt l' (putLink m l a p) b =
      if b = a then (c.setLink p l).link l' else linkAt l' m b := by
    unfold putLink linkAt
    rw [itemAt_edit, hc]
    split_ifs <;> rfl
  rw [hat, link_setLink]
  by_cases hb : b = a
  · subst hb
    rw [if_pos rfl]
    split_ifs with hl
    · rw [Function.update_self]
    · unfold linkAt
      rw [hc]
      rfl
  · rw [if_neg hb]
    split_ifs with hl
    · rw [hl, Function.update_of_ne hb]
    · rfl

@[simp] theorem fieldsAt_putLink (m : Memory Block) (l : Link) (a : ℕ) (p : Option ℕ) :
    fieldsAt (putLink m l a p) = fieldsAt m := by
  funext b
  have h := bind_itemAt_edit (g := fun c => some c.fields) (f := Item.setLink p l)
    (fun c => by cases l <;> rfl) m a b
  unfold fieldsAt putLink
  rw [Option.map_eq_bind, Option.map_eq_bind]
  exact h

@[simp] theorem textAt_putLink (m : Memory Block) (l : Link) (a : ℕ) (p : Option ℕ) :
    textAt (putLink m l a p) = textAt m := textAt_edit ..

@[simp] theorem isItem_putLink {l : Link} : IsItem (putLink m l a p) b ↔ IsItem m b := isItem_edit

@[simp] theorem linkAt_putFields (m : Memory Block) (a : ℕ) (f : Fields) (l : Link) :
    linkAt l (putFields m a f) = linkAt l m := by
  funext b
  exact bind_itemAt_edit (fun c => by cases l <;> rfl) m a b

theorem fieldsAt_putFields (h : IsItem m a) :
    fieldsAt (putFields m a f) = Function.update (fieldsAt m) a (some f) := by
  funext b
  obtain ⟨c, hc⟩ := Option.isSome_iff_exists.mp h
  unfold putFields fieldsAt
  rw [itemAt_edit]
  by_cases hb : b = a
  · subst hb
    rw [if_pos rfl, hc, Function.update_self]
    rfl
  · rw [if_neg hb, Function.update_of_ne hb]

@[simp] theorem textAt_putFields (m : Memory Block) (a : ℕ) (f : Fields) :
    textAt (putFields m a f) = textAt m := textAt_edit ..

@[simp] theorem isItem_putFields : IsItem (putFields m a f) b ↔ IsItem m b := isItem_edit

/-! ## accesses -/

theorem item_eq (h : itemAt m a = some c) : item a m = .ok (c, m) := by
  unfold item
  rw [block_of_item h]

theorem text_eq (h : textAt m a = some s) : text a m = .ok (s, m) := by
  unfold text
  rw [block_of_text h]

theorem modify_eq (h : IsItem m a) (f : Item → Item) : modify f a m = .ok ((), edit m a f) := by
  obtain ⟨c, hc⟩ := Option.isSome_iff_exists.mp h
  have hedit : edit m a f = ⟨Function.update m.block a (some (.item (f c))), m.answers⟩ := by
    rw [edit, Memory.mk.injEq]
    refine ⟨funext fun b => ?_, rfl⟩
    by_cases hb : b = a
    · subst hb
      rw [if_pos rfl, hc, Function.update_self]
      rfl
    · rw [if_neg hb, Function.update_of_ne hb]
  rw [hedit]
  exact (bind_of_ok (item_eq hc) _).trans (store_of_block (block_of_item hc))

@[simp] theorem setNext_eq (h : IsItem m a) (p : Option ℕ) :
    setNext a p m = .ok ((), putLink m .next a p) := modify_eq h _

@[simp] theorem setPrev_eq (h : IsItem m a) (p : Option ℕ) :
    setPrev a p m = .ok ((), putLink m .prev a p) := modify_eq h _

@[simp] theorem setChild_eq (h : IsItem m a) (p : Option ℕ) :
    setChild a p m = .ok ((), putLink m .child a p) := modify_eq h _

@[simp] theorem setFields_eq (h : IsItem m a) (f : Fields) :
    setFields a f m = .ok ((), putFields m a f) := modify_eq h _

@[simp] theorem next_eq (h : IsItem m a) : next a m = .ok (linkAt .next m a, m) := by
  obtain ⟨c, hc⟩ := Option.isSome_iff_exists.mp h
  refine (bind_of_ok (item_eq hc) _).trans ?_
  unfold linkAt
  rw [hc]
  rfl

@[simp] theorem prev_eq (h : IsItem m a) : prev a m = .ok (linkAt .prev m a, m) := by
  obtain ⟨c, hc⟩ := Option.isSome_iff_exists.mp h
  refine (bind_of_ok (item_eq hc) _).trans ?_
  unfold linkAt
  rw [hc]
  rfl

@[simp] theorem child_eq (h : IsItem m a) : child a m = .ok (linkAt .child m a, m) := by
  obtain ⟨c, hc⟩ := Option.isSome_iff_exists.mp h
  refine (bind_of_ok (item_eq hc) _).trans ?_
  unfold linkAt
  rw [hc]
  rfl

theorem fields_eq (h : fieldsAt m a = some f) : fields a m = .ok (f, m) := by
  obtain ⟨c, hc, rfl⟩ := Option.map_eq_some_iff.mp h
  exact (bind_of_ok (item_eq hc) _).trans rfl

@[simp] theorem deref_eq (a : ℕ) (m : Memory Block) : deref (some a) m = .ok (a, m) := rfl

end CJSON.Heap
