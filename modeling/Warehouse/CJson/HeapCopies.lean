import Warehouse.CJson.Trees

/-!
# Copies in memory

A copy is built beside what is there.  Where an allocation is refused, or the tree is too deep, all
that was built is released again.

* `Content`, `Tree.content`   a tree without its addresses;
* `Partial`              a copy in the making;
* `duplicateRec_copies`  the outcome of a copy: the same contents at new addresses, or nothing;
* `Holds.duplicate`      the same for a tree of the forest.
-/

namespace CJSON.Heap
open Machine Memory Text Numeric

/-! ## contents -/

/-- a label without addresses -/
structure Face where
  kind : Kind
  stringIsConst : Bool
  valuestring : Option CString
  valueint : ℤ
  valuedouble : Binary64
  string : Option CString
deriving DecidableEq

def Label.face (l : Label) : Face :=
  ⟨l.kind, l.stringIsConst, l.valuestring.map Prod.snd, l.valueint, l.valuedouble,
    l.string.map Prod.snd⟩

inductive Content
  | node (face : Face) (kids : List Content)

mutual

def Tree.content : Tree → Content
  | .node _ lab ks => .node lab.face (contents ks)

def contents : List Tree → List Content
  | [] => []
  | t :: ts => t.content :: contents ts

end

mutual

/-- the number of edges on the longest path down -/
def Tree.height : Tree → ℕ
  | .node _ _ ks => heights ks

def heights : List Tree → ℕ
  | [] => 0
  | t :: ts => max (t.height + 1) (heights ts)

end

/-! ## strings -/

variable {m m' m₀ m₁ : Memory Block} {R : List Record} {r : Record} {lab lab' : Label}
  {ts ds : List Tree} {a w : ℕ} {X : List ℕ} {S : ℕ → Option CString} {roots : List ℕ}

theorem itemAt_of_text {s : CString} (h : textAt m a = some s) : itemAt m a = none := by
  unfold itemAt
  rw [block_of_text h]

theorem itemAt_of_free (h : m.block a = none) : itemAt m a = none := by
  unfold itemAt
  rw [h]

theorem linkAt_of_itemAt (h : itemAt m' = itemAt m) (l : Link) : linkAt l m' = linkAt l m := by
  funext a
  unfold linkAt
  rw [h]

theorem fieldsAt_of_itemAt (h : itemAt m' = itemAt m) : fieldsAt m' = fieldsAt m := by
  funext a
  unfold fieldsAt
  rw [h]

/-- a string is copied to a new block, or the copy is refused -/
theorem strdup_cases (o : Option (ℕ × CString)) (h : ∀ e ∈ o, textAt m e.1 = some e.2) :
    ∃ (o' : Option (ℕ × CString)) (m' : Memory Block),
      strdup (o.map Prod.fst) m = .ok (o'.map Prod.fst, m') ∧
      Grown m m' (o'.toList.map Prod.fst) ∧ itemAt m' = itemAt m ∧
      (∀ e ∈ o', textAt m' e.1 = some e.2) ∧
      (o'.map Prod.snd = o.map Prod.snd ∧
          (∀ j, Supply m (o.toList.length + j) → Supply m' j) ∨
        o.isSome = true ∧ o' = none ∧ ¬ Supply m 1) := by
  cases o with
  | none =>
    refine ⟨none, m, rfl, Grown.refl m, rfl, h, Or.inl ⟨rfl, fun j hj => ?_⟩⟩
    exact (by rwa [Option.toList_none, List.length_nil, zero_add] at hj : Supply m j)
  | some e =>
    have htext : text e.1 m = .ok (e.2, m) := text_eq (h e rfl)
    rcases alloc_cases (Block.text e.2) m with ⟨m', hrun, hblock, hno⟩ | ⟨k, m', hrun, hk, hm', hs⟩
    · refine ⟨none, m', (bind_of_ok htext _).trans hrun, ?_, ?_, (fun e he => nomatch he),
        Or.inr ⟨rfl, rfl, hno⟩⟩
      · exact (Grown.refl m).congr (fun a ha => absurd ha List.not_mem_nil)
          (fun a _ => congrFun hblock a)
      · funext a
        exact itemAt_congr (congrFun hblock a)
    · have hkt : textAt m' k = some e.2 := text_of_block (by rw [hm', Function.update_self])
      refine ⟨some (k, e.2), m', (bind_of_ok htext _).trans hrun, Grown.of_update hk hm', ?_, ?_,
        Or.inl ⟨rfl, hs⟩⟩
      · funext a
        by_cases hak : a = k
        · rw [hak, itemAt_of_text hkt, itemAt_of_free hk]
        · exact itemAt_congr (by rw [hm', Function.update_of_ne hak])
      · intro e' he'
        cases he'
        exact hkt

/-! ## a copy in the making -/

/-- beside the blocks of `m₀` there is an item with some finished children, chained one way only -/
structure Partial (m₀ m : Memory Block) (w : ℕ) (lab : Label) (ds : List Tree) : Prop where
  grown : Grown m₀ m (owned (records [.node w lab ds]))
  fields : fieldsAt m w = some lab.fields
  texts : ∀ e ∈ lab.texts, textAt m e.1 = some e.2
  child : linkAt .child m w = (ds.map Tree.address).head?
  single : linkAt .next m w = none ∧ linkAt .prev m w = none
  segment : Segment (linkAt .next m) (linkAt .prev m) none (ds.map Tree.address) none
  stored : ∀ r ∈ records ds, Stored m r

namespace Partial

theorem isItem (h : Partial m₀ m w lab ds) : IsItem m w := isItem_of_fields h.fields

theorem owned_eq (w : ℕ) (lab : Label) (ds : List Tree) :
    owned (records [.node w lab ds]) = w :: (lab.owned ++ owned (records ds)) := by
  rw [records_node, owned_cons, records_nil, List.append_nil]
  rfl

/-- it can be released as it stands -/
theorem loose (h : Partial m₀ m w lab ds) : ∀ r ∈ records [.node w lab ds], Loose m r := by
  intro r hr
  rw [records_node, records_nil, List.append_nil] at hr
  rcases List.mem_cons.mp hr with rfl | hr
  · refine ⟨h.fields, h.child, h.segment.linked, fun a ha => h.grown.live a ?_⟩
    rw [owned_eq]
    exact List.mem_cons_of_mem _ (List.mem_append_left _ ha)
  · exact (h.stored r hr).loose

/-- what was built is released again -/
theorem delete (h : Partial m₀ m w lab ds) : ∃ m', (∀ n > (records ds).length,
    Heap.delete n (some w) m = .ok ((), m')) ∧ m'.block = m₀.block := by
  obtain ⟨m', hrun, hm'⟩ := delete_trees [.node w lab ds] m h.grown.nodup h.loose
    ⟨h.single.1, trivial⟩
  refine ⟨m', fun n hn => hrun n ?_, h.grown.released hm'⟩
  rw [records_node, records_nil, List.append_nil, List.length_cons]
  omega

/-- other fields for the item, with the strings that were copied for them -/
theorem relabel (h : Partial m₀ m w lab ds) (lab' : Label) (hg : Grown m m₁ X) (hi : itemAt m₁ = itemAt m)
    (hX : (lab.owned ++ X).Perm lab'.owned) (ht : ∀ e ∈ lab'.texts, textAt m₁ e.1 = some e.2) :
    Partial m₀ (putFields m₁ w lab'.fields) w lab' ds := by
  have hw : IsItem m₁ w := by
    unfold IsItem
    rw [hi]
    exact h.isItem
  have hlink : ∀ l, linkAt l (putFields m₁ w lab'.fields) = linkAt l m := fun l => by
    rw [linkAt_putFields, linkAt_of_itemAt hi]
  have hblock : ∀ b, b ≠ w → (putFields m₁ w lab'.fields).block b = m₁.block b :=
    fun b hb => if_neg hb
  have hlive : (putFields m₁ w lab'.fields).block w ≠ none := by
    rw [block_ne_none_iff, fieldsAt_putFields hw, Function.update_self]
    exact Or.inl rfl
  have hown : (owned (records [.node w lab ds]) ++ X).Perm
      (owned (records [.node w lab' ds])) := by
    rw [owned_eq, owned_eq, List.cons_append, List.append_assoc]
    refine List.Perm.cons _ (List.Perm.trans ?_ (hX.append_right _))
    rw [List.append_assoc]
    exact (List.perm_append_comm).append_left _
  have hgrown := (h.grown.trans hg).perm hown
  refine ⟨hgrown.congr ?_ ?_, ?_, fun e he => ?_, ?_, ?_, ?_, ?_⟩
  · intro b hb
    by_cases hbw : b = w
    · rw [hbw]
      exact hlive
    · rw [hblock b hbw]
      exact hgrown.live b hb
  · intro b hb
    refine hblock b fun hbw => hb ?_
    rw [hbw, owned_eq]
    exact List.mem_cons_self ..
  · rw [fieldsAt_putFields hw, Function.update_self]
  · rw [textAt_putFields]
    exact ht e he
  · rw [hlink]
    exact h.child
  · rw [hlink, hlink]
    exact h.single
  · rw [hlink, hlink]
    exact h.segment
  · intro r hr
    have hrown : ∀ b ∈ r.owned, b ≠ w ∧ m.block b ≠ none := by
      intro b hb
      have hmem := mem_owned hr hb
      have hd := h.grown.nodup
      rw [owned_eq] at hd
      refine ⟨fun hbw => (List.nodup_cons.mp hd).1 ?_, (h.stored r hr).live hb⟩
      exact List.mem_append_right _ (hbw ▸ hmem)
    have hst := h.stored r hr
    refine ⟨?_, (congrFun (hlink .child) _).trans hst.child, ?_, fun e he => ?_⟩
    · rw [fieldsAt_putFields hw, fieldsAt_of_itemAt hi,
        Function.update_of_ne (hrown _ (List.mem_cons_self ..)).1]
      exact hst.fields
    · rw [hlink, hlink]
      exact hst.chain
    · have hlivet : m.block e.1 ≠ none := by
        rw [block_ne_none_iff, hst.texts e he]
        exact Or.inr rfl
      rw [textAt_putFields, textAt_congr (hg.known hlivet)]
      exact hst.texts e he

end Partial

/-- an item stays when a pointer beside its children is written -/
theorem Stored.putLink_of_notMem (h : Stored m r) {l : Link} (hl : l ≠ .child) (ha : a ∉ r.kids)
    (hi : IsItem m a) (p : Option ℕ) : Stored (putLink m l a p) r := by
  have hother : ∀ l', ∀ b ∈ r.kids, linkAt l' (putLink m l a p) b = linkAt l' m b := by
    intro l' b hb
    rw [linkAt_putLink hi]
    split_ifs with hll
    · rw [Function.update_of_ne (fun hba : b = a => ha (hba ▸ hb)), hll]
    · rfl
  refine ⟨by rw [fieldsAt_putLink]; exact h.fields, ?_, ?_, by rw [textAt_putLink]; exact h.texts⟩
  · rw [linkAt_putLink hi, if_neg (fun h => hl h.symm)]
    exact h.child
  · exact h.chain.congr (hother .next) (hother .prev)

/-- .. and when another item gets its first child -/
theorem Stored.putLink_child (h : Stored m r) (ha : a ≠ r.address) (hi : IsItem m a)
    (p : Option ℕ) : Stored (putLink m .child a p) r := by
  refine ⟨by rw [fieldsAt_putLink]; exact h.fields, ?_, ?_, by rw [textAt_putLink]; exact h.texts⟩
  · rw [linkAt_putLink hi, if_pos rfl, Function.update_of_ne ha.symm]
    exact h.child
  · rw [linkAt_putLink hi, linkAt_putLink hi]
    exact h.chain

theorem isItem_congr (h : m'.block a = m.block a) : IsItem m' a ↔ IsItem m a := by
  unfold IsItem
  rw [itemAt_congr h]

theorem grown_putLink (h : Grown m₀ m X) (ha : a ∈ X) (l : Link) (p : Option ℕ) :
    Grown m₀ (putLink m l a p) X := by
  refine h.congr (fun b hb => ?_) (fun b hb => if_neg fun hba : b = a => hb (hba ▸ ha))
  by_cases hba : b = a
  · subst hba
    show (if b = b then _ else _) ≠ none
    rw [if_pos rfl]
    cases itemAt m b with
    | none => exact h.live b hb
    | some c => exact Option.some_ne_none _
  · show (if b = a then _ else _) ≠ none
    rw [if_neg hba]
    exact h.live b hb

theorem supply_putFields {k : ℕ} {f : Fields} (h : Supply m k) (hw : IsItem m w) :
    Supply (Heap.putFields m w f) k := by
  refine Memory.Supply.congr h rfl fun a ha => ?_
  refine (if_neg fun haw => ?_).trans ha
  rw [IsItem, ← haw, itemAt_of_free ha] at hw
  cases hw

theorem supply_putLink {k : ℕ} {l : Link} {p : Option ℕ} (h : Supply m k) (hw : IsItem m w) :
    Supply (Heap.putLink m l w p) k := by
  refine Memory.Supply.congr h rfl fun a ha => ?_
  refine (if_neg fun haw => ?_).trans ha
  rw [IsItem, ← haw, itemAt_of_free ha] at hw
  cases hw

/-- the pointers that hang a finished copy behind the last one, `last` -/
def hang (w : ℕ) (last : Option ℕ) (new : ℕ) (m : Memory Block) : Memory Block :=
  match last with
  | none => putLink m .child w (some new)
  | some last => putLink (putLink m .next last (some new)) .prev new (some last)

namespace Partial

/-- other blocks are new, and the copy in the making stays -/
theorem grow (h : Partial m₀ m w lab ds) (hg : Grown m m₁ X) :
    (∀ b ∈ owned (records [.node w lab ds]), m₁.block b = m.block b ∧ b ∉ X) := fun b hb =>
  ⟨hg.known (h.grown.live b hb), fun hX => h.grown.live b hb (hg.fresh b hX)⟩

theorem root_mem {t : Tree} (ds : List Tree) (ht : t ∈ ds) : t.address ∈ owned (records ds) := by
  have hmem := (records_parents ds).mem_iff.mp
    (List.mem_append_left _ (List.mem_map_of_mem (f := Tree.address) ht))
  obtain ⟨r, hr, hrt⟩ := List.mem_map.mp hmem
  exact hrt ▸ address_mem_owned hr

theorem kids_subset (ds : List Tree) : ∀ b ∈ kids (records ds), b ∈ owned (records ds) := by
  intro b hb
  obtain ⟨r, hr, rfl⟩ := List.mem_map.mp
    ((records_parents ds).mem_iff.mp (List.mem_append_right _ hb))
  exact address_mem_owned hr

/-- one more copy is finished and hung behind the last one -/
theorem link {t : Tree} (h : Partial m₀ m w lab ds) (hg : Grown m m₁ (owned t.records))
    (hst : ∀ r ∈ t.records, Stored m₁ r)
    (hsingle : linkAt .next m₁ t.address = none ∧ linkAt .prev m₁ t.address = none) :
    Partial m₀ (hang w (ds.map Tree.address).getLast? t.address m₁) w lab (ds ++ [t]) := by
  have hgrown : Grown m₀ m₁ (owned (records [.node w lab (ds ++ [t])])) := by
    have happ := h.grown.trans hg
    rw [owned_eq, List.cons_append, List.append_assoc] at happ
    rw [owned_eq, records_append, owned_append, records_cons, records_nil, List.append_nil]
    exact happ
  have hnew := h.grow hg
  rw [owned_eq] at hnew
  have hw := hnew w (List.mem_cons_self ..)
  have hds : ∀ b ∈ owned (records ds), m₁.block b = m.block b ∧ b ∉ owned t.records := fun b hb =>
    hnew b (List.mem_cons_of_mem _ (List.mem_append_right _ hb))
  have hwds : w ∉ owned (records ds) := by
    have hd := h.grown.nodup
    rw [owned_eq] at hd
    exact fun hmem => (List.nodup_cons.mp hd).1 (List.mem_append_right _ hmem)
  have hta : t.address ∈ owned t.records := by
    have := root_mem [t] (List.mem_singleton_self t)
    rwa [records_cons, records_nil, List.append_nil] at this
  have hti : IsItem m₁ t.address := by
    cases t with
    | node a lab' ks => exact (hst _ (List.mem_cons_self ..)).isItem
  have hwi : IsItem m₁ w := (isItem_congr hw.1).mpr h.isItem
  have hroots : ∀ b ∈ ds.map Tree.address, b ∈ owned (records ds) := by
    intro b hb
    obtain ⟨t', ht', rfl⟩ := List.mem_map.mp hb
    exact root_mem ds ht'
  have hpar : (ds.map Tree.address ++ kids (records ds)).Nodup := by
    have hd := h.grown.nodup
    rw [owned_eq] at hd
    exact records_addresses_nodup ds (List.nodup_append.mp (List.nodup_cons.mp hd).2).2.1
  have hpar' : t.address ∉ kids t.records := by
    have hd := records_addresses_nodup [t]
      (by rw [records_cons, records_nil, List.append_nil]; exact hg.nodup)
    rw [records_cons, records_nil, List.append_nil] at hd
    exact fun hk => (List.nodup_append.mp hd).2.2 _ (List.mem_singleton_self _) _ hk rfl
  have hkidst : ∀ b ∈ kids t.records, b ∈ owned t.records := by
    have := kids_subset [t]
    rwa [records_cons, records_nil, List.append_nil] at this
  have hold : ∀ r ∈ records ds, Stored m₁ r := by
    intro r hr
    have hst := h.stored r hr
    refine ⟨?_, ?_, ?_, fun e he => ?_⟩
    · rw [fieldsAt_congr (hds _ (address_mem_owned hr)).1]
      exact hst.fields
    · rw [linkAt_congr _ (hds _ (address_mem_owned hr)).1]
      exact hst.child
    · have hk : ∀ b ∈ r.kids, m₁.block b = m.block b := fun b hb =>
        (hds b (kids_subset ds b (List.mem_flatMap.mpr ⟨r, hr, hb⟩))).1
      exact hst.chain.congr (fun b hb => linkAt_congr _ (hk b hb))
        (fun b hb => linkAt_congr _ (hk b hb))
    · have hlive : m.block e.1 ≠ none := by
        rw [block_ne_none_iff, hst.texts e he]
        exact Or.inr rfl
      rw [textAt_congr (hg.known hlive)]
      exact hst.texts e he
  have hseg : Segment (linkAt .next m₁) (linkAt .prev m₁) none (ds.map Tree.address) none :=
    h.segment.congr (fun b hb => linkAt_congr _ (hds b (hroots b hb)).1)
      (fun b hb => linkAt_congr _ (hds b (hroots b hb)).1)
  have htexts : ∀ e ∈ lab.texts, textAt m₁ e.1 = some e.2 := by
    intro e he
    have hlive : m.block e.1 ≠ none := by
      rw [block_ne_none_iff, h.texts e he]
      exact Or.inr rfl
    rw [textAt_congr (hg.known hlive)]
    exact h.texts e he
  have hwt : w ≠ t.address := fun hwt => hw.2 (hwt ▸ hta)
  have hmem : ∀ b, b = w ∨ b ∈ owned (records ds) ∨ b ∈ owned t.records →
      b ∈ owned (records [.node w lab (ds ++ [t])]) := by
    intro b hb
    rw [owned_eq, records_append, owned_append, records_cons, records_nil, List.append_nil]
    simp only [List.mem_cons, List.mem_append]
    tauto
  have hfields : fieldsAt m₁ w = some lab.fields := by
    rw [fieldsAt_congr hw.1]
    exact h.fields
  have hlinks : ∀ l, linkAt l m₁ w = linkAt l m w := fun l => linkAt_congr l hw.1
  cases hlast : (ds.map Tree.address).getLast? with
  | none =>
    have hnil : ds = [] := List.map_eq_nil_iff.mp (List.getLast?_eq_none_iff.mp hlast)
    subst hnil
    refine ⟨grown_putLink hgrown (hmem w (Or.inl rfl)) _ _, ?_, ?_, ?_, ?_, ?_, ?_⟩
    · simpa [hang] using hfields
    · simpa [hang] using htexts
    · simp [hang, linkAt_putLink, hwi]
    · simpa [hang, linkAt_putLink, hwi, hlinks] using h.single
    · simpa [hang, linkAt_putLink, hwi] using hsingle.symm
    · intro r hr
      rw [List.nil_append, records_cons, records_nil, List.append_nil] at hr
      refine (hst r hr).putLink_child (fun hwr => hw.2 ?_) hwi _
      exact hwr ▸ address_mem_owned hr
  | some last =>
    have hlmem : last ∈ ds.map Tree.address := List.mem_of_getLast? hlast
    have hlown := hroots last hlmem
    have hli : IsItem m₁ last := by
      obtain ⟨r, hr, hrl⟩ := List.mem_map.mp
        ((records_parents ds).mem_iff.mp (List.mem_append_left _ hlmem))
      exact hrl ▸ (hold r hr).isItem
    have hlw : w ≠ last := fun hwl => hwds (hwl ▸ hlown)
    have hlt : last ≠ t.address := fun hlt => (hds last hlown).2 (hlt ▸ hta)
    refine ⟨grown_putLink (grown_putLink hgrown (hmem last (Or.inr (Or.inl hlown))) _ _)
      (hmem _ (Or.inr (Or.inr hta))) _ _, ?_, ?_, ?_, ?_, ?_, ?_⟩
    · simpa [hang] using hfields
    · simpa [hang] using htexts
    · cases ds with
      | nil => cases hlast
      | cons d ds => simpa [hang, linkAt_putLink, hli, hti, hlinks] using h.child
    · simpa [hang, linkAt_putLink, hli, hti, hlw, hwt, hlinks] using h.single
    · rw [List.map_append]
      refine segment_snoc (List.nodup_append.mp hpar).1 hseg ?_ ?_ ?_
      · simp [hang, linkAt_putLink, hli, hti, hlt.symm, hsingle.1, hlast]
      · intro b hb
        simp [hang, linkAt_putLink, hli, hti, hlast, Function.update_apply]
      · intro b hb
        have hbt : b ≠ t.address := fun hbt => (hds b (hroots b hb)).2 (hbt ▸ hta)
        simp [hang, linkAt_putLink, hli, hti, hbt]
    · intro r hr
      rw [records_append, records_cons, records_nil, List.append_nil] at hr
      have hboth : Stored m₁ r ∧ last ∉ r.kids ∧ t.address ∉ r.kids := by
        rcases List.mem_append.mp hr with hr | hr
        · have hk : ∀ b ∈ r.kids, b ∈ kids (records ds) := fun b hb =>
            List.mem_flatMap.mpr ⟨r, hr, hb⟩
          refine ⟨hold r hr, fun hl => ?_, fun ht => ?_⟩
          · exact (List.nodup_append.mp hpar).2.2 last hlmem last (hk _ hl) rfl
          · exact (hds _ (kids_subset ds _ (hk _ ht))).2 hta
        · have hk : ∀ b ∈ r.kids, b ∈ kids t.records := fun b hb =>
            List.mem_flatMap.mpr ⟨r, hr, hb⟩
          exact ⟨hst r hr, fun hl => (hds _ hlown).2 (hkidst _ (hk _ hl)),
            fun ht => hpar' (hk _ ht)⟩
      refine (hboth.1.putLink_of_notMem (by simp) hboth.2.1 hli _).putLink_of_notMem (by simp)
        hboth.2.2 (by simpa using hti) _

/-- at the end the first child gets the last one -/
theorem close (h : Partial m₀ m w lab ds) :
    ∃ m', (∀ n depth, copyChildren n depth w (ds.map Tree.address).getLast? none m =
        .ok (true, m')) ∧
      Grown m₀ m' (owned (records [.node w lab ds])) ∧
      (linkAt .next m' w = none ∧ linkAt .prev m' w = none) ∧
      (∀ r ∈ records [.node w lab ds], Stored m' r) ∧ ∀ j, Supply m j → Supply m' j := by
  have hwi := h.isItem
  cases hds : ds with
  | nil =>
    subst hds
    have hchild : linkAt .child m w = none := h.child
    refine ⟨m, ?_, h.grown, h.single, ?_, fun j hj => hj⟩
    · intro n depth
      cases n <;> simp [copyChildren, hwi, hchild]
    · intro r hr
      rw [List.mem_singleton.mp hr]
      exact ⟨h.fields, h.child, chain_nil, h.texts⟩
  | cons d ds' =>
    have hchild : linkAt .child m w = some d.address := by
      rw [h.child, hds]
      rfl
    have hdown : d.address ∈ owned (records ds) := root_mem ds (by rw [hds]; exact List.mem_cons_self ..)
    have hd := h.grown.nodup
    rw [owned_eq] at hd
    have hwd : w ≠ d.address := fun hwd =>
      (List.nodup_cons.mp hd).1 (List.mem_append_right _ (hwd ▸ hdown))
    have hpar := records_addresses_nodup ds
      (List.nodup_append.mp (List.nodup_cons.mp hd).2).2.1
    have hdi : IsItem m d.address := by
      obtain ⟨r, hr, hrd⟩ := List.mem_map.mp ((records_parents ds).mem_iff.mp
        (List.mem_append_left _ (List.mem_map_of_mem (f := Tree.address)
          (show d ∈ ds by rw [hds]; exact List.mem_cons_self ..))))
      exact hrd ▸ (h.stored r hr).isItem
    rw [← hds]
    refine ⟨putLink m .prev d.address (ds.map Tree.address).getLast?, ?_, ?_, ?_, ?_, ?_⟩
    · intro n depth
      cases n <;> simp [copyChildren, hwi, hchild, hdi]
    · refine grown_putLink h.grown ?_ _ _
      rw [owned_eq]
      exact List.mem_cons_of_mem _ (List.mem_append_right _ hdown)
    · simpa [linkAt_putLink, hdi, hwd] using h.single
    · intro r hr
      rw [records_node, records_nil, List.append_nil] at hr
      rcases List.mem_cons.mp hr with rfl | hr
      · refine ⟨by simpa using h.fields, by simpa [linkAt_putLink, hdi] using h.child, ?_,
          by simpa using h.texts⟩
        refine chain_of_segment (List.nodup_append.mp hpar).1 h.segment ?_ ?_
        · intro b _
          simp [linkAt_putLink, hdi]
        · intro b _
          rw [hds]
          simp [linkAt_putLink, hdi, Function.update_apply]
      · refine (h.stored r hr).putLink_of_notMem (by simp) (fun hk => ?_) hdi _
        refine (List.nodup_append.mp hpar).2.2 d.address ?_ d.address
          (List.mem_flatMap.mpr ⟨r, hr, hk⟩) rfl
        rw [hds]
        exact List.mem_cons_self ..
    · exact fun j hj => supply_putLink hj hdi

end Partial

/-- the label of a copy before its strings are there -/
def Label.bare (l : Label) : Label := { l with valuestring := none, string := none }

/-- the label of a copy has the same contents, and shares a constant name -/
structure SameLabel (lab lab' : Label) : Prop where
  face : lab'.face = lab.face
  borrowed : lab'.borrowed = lab.borrowed

/-- the strings of a copy are copied one after the other, unless one is refused -/
theorem copyTexts_cases (h : Partial m₀ m w lab.bare [])
    (ht : ∀ e ∈ lab.texts, textAt m e.1 = some e.2) :
    ∃ b m' lab', copyTexts w lab.fields m = .ok (b, m') ∧ Partial m₀ m' w lab' [] ∧
      (b = true ∧ SameLabel lab lab' ∧ (∀ j, Supply m (lab.owned.length + j) → Supply m' j) ∨
        b = false ∧ ¬ Supply m lab.owned.length) := by
  obtain ⟨o₁, m₁, hrun₁, hg₁, hi₁, ht₁, hres₁⟩ := strdup_cases lab.valuestring
    (fun e he => ht e (List.mem_append_left _ (Option.mem_toList.mpr he)))
  have hfields : fieldsAt m₁ w = some lab.bare.fields := by
    rw [fieldsAt_of_itemAt hi₁]
    exact h.fields
  have hw₁ : IsItem m₁ w := isItem_of_fields hfields
  have hP₁ : Partial m₀ (putFields m₁ w { lab.bare with valuestring := o₁ }.fields) w
      { lab.bare with valuestring := o₁ } [] := by
    refine h.relabel { lab.bare with valuestring := o₁ } hg₁ hi₁ ?_ ?_
    · cases hc : lab.stringIsConst <;> simp [Label.owned, Label.bare, hc]
    · intro e he
      refine ht₁ e ?_
      simpa [Label.texts, Label.bare] using he
  generalize hm₂ : putFields m₁ w { lab.bare with valuestring := o₁ }.fields = m₂ at hP₁
  have hset : setFields w { lab.bare.fields with valuestring := o₁.map Prod.fst } m₁ =
      .ok ((), m₂) := by
    rw [← hm₂]
    exact setFields_eq hw₁ _
  have hlen : lab.owned.length = lab.valuestring.toList.length +
      (if lab.stringIsConst then [] else lab.string.toList).length := by
    rw [Label.owned, List.length_map, List.length_append]
  have hrun : ∀ r, (do
      if lab.fields.valuestring.isSome ∧ o₁.map Prod.fst = none then return false
      else do
        let string ← if lab.fields.stringIsConst then pure lab.fields.string
          else strdup lab.fields.string
        setFields w { (← fields w) with string := string }
        return !(lab.fields.string.isSome ∧ string = none) : Prog Block Bool) m₂ = r →
      copyTexts w lab.fields m = r := by
    intro r hr
    refine (bind_of_ok hrun₁ _).trans ((bind_of_ok (fields_eq hfields) _).trans ?_)
    exact (bind_of_ok hset _).trans hr
  rcases hres₁ with ⟨hsame₁, hs₁⟩ | ⟨hsome, rfl, hno⟩
  · have hgo : ¬ (lab.fields.valuestring.isSome = true ∧ o₁.map Prod.fst = none) := by
      rintro ⟨hsome, hnone⟩
      rw [Option.map_eq_none_iff.mp hnone, Option.map_none] at hsame₁
      have hv := Option.map_eq_none_iff.mp hsame₁.symm
      rw [Label.fields, hv] at hsome
      cases hsome
    have hs₂ : ∀ j, Supply m (lab.valuestring.toList.length + j) → Supply m₂ j := fun j hj => by
      rw [← hm₂]
      exact supply_putFields (hs₁ j hj) hw₁
    have ht₂ : ∀ e ∈ lab.string, textAt m₂ e.1 = some e.2 := by
      intro e he
      have hte := ht e (List.mem_append_right _ (Option.mem_toList.mpr he))
      have hlive : m.block e.1 ≠ none := by
        rw [block_ne_none_iff, hte]
        exact Or.inr rfl
      rw [← hm₂, textAt_putFields, textAt_congr (hg₁.known hlive)]
      exact hte
    cases hc : lab.stringIsConst with
    | true =>
      have hP₂ := hP₁.relabel { lab.bare with valuestring := o₁, string := lab.string }
        (Grown.refl m₂) rfl (by simp [Label.owned, Label.bare, hc]) (by
          intro e he
          rcases List.mem_append.mp he with he | he
          · exact hP₁.texts e (List.mem_append_left _ he)
          · exact ht₂ e (Option.mem_toList.mp he))
      refine ⟨true, _, _, hrun _ ?_, hP₂, Or.inl ⟨rfl, ⟨?_, ?_⟩, fun j hj => ?_⟩⟩
      · rw [if_neg hgo]
        have hif : lab.fields.stringIsConst = true := hc
        simp only [hif, if_true]
        refine (bind_of_ok rfl _).trans ((bind_of_ok (fields_eq hP₁.fields) _).trans ?_)
        refine (bind_of_ok (setFields_eq hP₁.isItem _) _).trans ?_
        cases hstr : lab.string <;> simp [Label.fields, hstr, Label.bare]
      · rw [Label.face, Label.face, Face.mk.injEq]
        exact ⟨rfl, rfl, hsame₁, rfl, rfl, rfl⟩
      · rfl
      · rw [hlen, hc] at hj
        exact supply_putFields (hs₂ j hj) hP₁.isItem
    | false =>
      obtain ⟨o₂, m₃, hrun₂, hg₂, hi₂, htext₂, hres₂⟩ := strdup_cases lab.string ht₂
      have hP₂ := hP₁.relabel { lab.bare with valuestring := o₁, string := o₂ }
        hg₂ hi₂ (by simp [Label.owned, Label.bare, hc]) (by
          intro e he
          rcases List.mem_append.mp he with he | he
          · have hte := hP₁.texts e (List.mem_append_left _ he)
            have hlive : m₂.block e.1 ≠ none := by
              rw [block_ne_none_iff, hte]
              exact Or.inr rfl
            rw [textAt_congr (hg₂.known hlive)]
            exact hte
          · exact htext₂ e (Option.mem_toList.mp he))
      have hfields₃ : fieldsAt m₃ w = some { lab.bare with valuestring := o₁ }.fields := by
        rw [fieldsAt_of_itemAt hi₂]
        exact hP₁.fields
      have hw₃ : IsItem m₃ w := isItem_of_fields hfields₃
      have hif : lab.fields.stringIsConst = false := hc
      have hend : copyTexts w lab.fields m =
          .ok (!(lab.fields.string.isSome ∧ o₂.map Prod.fst = none : Bool), putFields m₃ w
            { lab.bare with valuestring := o₁, string := o₂ }.fields) := by
        refine hrun _ ?_
        rw [if_neg hgo]
        simp only [hif, Bool.false_eq_true, if_false]
        refine (bind_of_ok hrun₂ _).trans ((bind_of_ok (fields_eq hfields₃) _).trans ?_)
        exact (bind_of_ok (setFields_eq hw₃ _) _).trans rfl
      refine ⟨_, _, _, hend, hP₂, ?_⟩
      rcases hres₂ with ⟨hsame₂, hs₃⟩ | ⟨hsome, rfl, hno⟩
      · refine Or.inl ⟨?_, ⟨?_, ?_⟩, fun j hj => ?_⟩
        · cases hstr : lab.string with
          | none => simp [Label.fields, hstr]
          | some e =>
            rw [hstr] at hsame₂
            cases ho : o₂ with
            | none =>
              rw [ho] at hsame₂
              cases hsame₂
            | some e' => simp
        · rw [Label.face, Label.face, Face.mk.injEq]
          exact ⟨rfl, rfl, hsame₁, rfl, rfl, hsame₂⟩
        · simp [Label.borrowed, Label.bare, hc]
        · rw [hlen, hc, add_assoc] at hj
          exact supply_putFields (hs₃ j (hs₂ _ hj)) hw₃
      · refine Or.inr ⟨?_, fun hall => hno ?_⟩
        · simp [Label.fields, hsome]
        · rw [hlen, hc] at hall
          obtain ⟨e, he⟩ := Option.isSome_iff_exists.mp hsome
          rw [he] at hall
          exact hs₂ 1 hall
  · refine ⟨false, m₂, _, hrun _ ?_, hP₁, Or.inr ⟨rfl, fun hall => hno ?_⟩⟩
    · rw [if_pos ⟨by simpa [Label.fields] using hsome, rfl⟩]
      rfl
    · obtain ⟨e, he⟩ := Option.isSome_iff_exists.mp hsome
      rw [hlen, he] at hall
      exact hall.mono

/-! ## copies -/

/-- the copy of an item before its children: nothing, or an item with the same label -/
theorem newCopy_cases {ks : List ℕ} (h : Stored m ⟨a, lab, ks⟩) :
    (∃ m', m'.block = m.block ∧ ¬ Supply m (lab.owned.length + 1) ∧
        ∀ n ≥ 1, ∀ depth recurse, duplicateRec (n + 1) (some a) depth recurse m = .ok (none, m')) ∨
      ∃ w m' lab', Partial m m' w lab' [] ∧ SameLabel lab lab' ∧
        (∀ j, Supply m (lab.owned.length + 1 + j) → Supply m' j) ∧
        ∀ n depth recurse, duplicateRec (n + 1) (some a) depth recurse m = (do
          let done ← if recurse then copyChildren n depth w none ks.head? else pure true
          if done then return some w
          else do
            delete n (some w)
            return none : Prog Block (Option ℕ)) m' := by
  obtain ⟨c, hc, hfields⟩ := Option.map_eq_some_iff.mp h.fields
  have hchild : c.child = ks.head? := by
    have := h.child
    unfold linkAt at this
    rwa [hc] at this
  rcases alloc_cases (Block.item blank) m with ⟨m', hrun, hblock, hno⟩ | ⟨w, m₁, hrun, hw, hm₁, hs⟩
  · refine Or.inl ⟨m', hblock, fun hall => hno ?_, fun n _ depth recurse => ?_⟩
    · rw [add_comm] at hall
      exact hall.mono
    · rw [duplicateRec]
      exact bind_of_ok hrun _
  · have hwi : itemAt m₁ w = some blank := item_of_block (by rw [hm₁, Function.update_self])
    have haw : a ≠ w := fun haw => by
      rw [haw, itemAt_of_free hw] at hc
      cases hc
    have hca : itemAt m₁ a = some c := by
      rw [← hc]
      exact itemAt_congr (by rw [hm₁, Function.update_of_ne haw])
    have hwit : IsItem m₁ w := by
      unfold IsItem
      rw [hwi]
      rfl
    have hlink : ∀ l, linkAt l (putFields m₁ w lab.bare.fields) w = none := by
      intro l
      rw [linkAt_putFields]
      unfold linkAt
      rw [hwi]
      cases l <;> rfl
    have hg₁ : Grown m m₁ [w] := Grown.of_update hw hm₁
    have hbare : lab.bare.owned = [] := by
      cases hconst : lab.stringIsConst <;> simp [Label.owned, Label.bare, hconst]
    have hP : Partial m (putFields m₁ w lab.bare.fields) w lab.bare [] := by
      refine ⟨?_, ?_, ?_, hlink _, ⟨hlink _, hlink _⟩, trivial, fun r hr => nomatch hr⟩
      · rw [Partial.owned_eq, hbare]
        refine hg₁.congr (fun b hb => ?_) (fun b hb => if_neg fun hbw : b = w => hb (by simp [hbw]))
        rw [List.mem_singleton.mp hb, block_ne_none_iff, fieldsAt_putFields hwit,
          Function.update_self]
        exact Or.inl rfl
      · rw [fieldsAt_putFields hwit, Function.update_self]
      · exact fun e he => nomatch he
    have htexts : ∀ e ∈ lab.texts, textAt (putFields m₁ w lab.bare.fields) e.1 = some e.2 := by
      intro e he
      have hte := h.texts e he
      have hlive : m.block e.1 ≠ none := by
        rw [block_ne_none_iff, hte]
        exact Or.inr rfl
      rw [textAt_putFields, textAt_congr (hg₁.known hlive)]
      exact hte
    obtain ⟨b, m₂, lab', hcopy, hP₂, hres⟩ := copyTexts_cases hP htexts
    have hstart : ∀ n depth recurse, duplicateRec (n + 1) (some a) depth recurse m = (do
        let done ← if b && recurse then copyChildren n depth w none ks.head? else pure b
        if done then return some w
        else do
          delete n (some w)
          return none : Prog Block (Option ℕ)) m₂ := by
      intro n depth recurse
      rw [duplicateRec]
      refine (bind_of_ok hrun _).trans ((bind_of_ok (item_eq hca) _).trans ?_)
      rw [hfields, hchild]
      exact (bind_of_ok (setFields_eq hwit _) _).trans (bind_of_ok hcopy _)
    have hsup : ∀ j, Supply m (lab.owned.length + 1 + j) →
        Supply (putFields m₁ w lab.bare.fields) (lab.owned.length + j) := fun j hj => by
      rw [add_comm lab.owned.length, add_assoc] at hj
      exact supply_putFields (hs _ hj) hwit
    rcases hres with ⟨rfl, hsame, hs₂⟩ | ⟨rfl, hno⟩
    · exact Or.inr ⟨w, m₂, lab', hP₂, hsame, fun j hj => hs₂ j (hsup j hj), fun n depth recurse => by
        rw [hstart, Bool.true_and]⟩
    · obtain ⟨m₃, hdel, hblock⟩ := hP₂.delete
      refine Or.inl ⟨m₃, hblock, fun hall => hno (hsup 0 hall), fun n hn depth recurse => ?_⟩
      rw [hstart, Bool.false_and]
      refine (bind_of_ok rfl _).trans ?_
      exact (bind_of_ok (hdel n hn) _).trans rfl

/-- the outcome for a whole tree: the same contents at new addresses .. -/
structure Copied (m m' : Memory Block) (t t' : Tree) : Prop where
  content : t'.content = t.content
  grown : Grown m m' (owned t'.records)
  stored : ∀ r ∈ t'.records, Stored m' r
  single : linkAt .next m' t'.address = none ∧ linkAt .prev m' t'.address = none
  borrowed : ∀ r ∈ t'.records, ∀ a ∈ r.label.borrowed, ∃ r₀ ∈ t.records, a ∈ r₀.label.borrowed

/-- the children of an item are copied one after the other -/
def CopiesKids (rs : List Tree) : Prop :=
  ∀ (depth : ℕ) (m₀ m : Memory Block) (w : ℕ) (lab : Label) (ds : List Tree),
    Partial m₀ m w lab ds → (∀ r ∈ records rs, Stored m₀ r) →
    Linked (linkAt .next m₀) (rs.map Tree.address) →
    ∃ b m' us, (∀ n > 2 * (records rs).length, copyChildren n depth w
        (ds.map Tree.address).getLast? (rs.map Tree.address).head? m = .ok (b, m')) ∧
      (records us).length ≤ (records rs).length ∧
      (b = true ∧ contents us = contents rs ∧
          Grown m₀ m' (owned (records [.node w lab (ds ++ us)])) ∧
          (linkAt .next m' w = none ∧ linkAt .prev m' w = none) ∧
          (∀ r ∈ records [.node w lab (ds ++ us)], Stored m' r) ∧
          (∀ r ∈ records us, ∀ a ∈ r.label.borrowed, ∃ r₀ ∈ records rs, a ∈ r₀.label.borrowed) ∧
          (depth ≤ CJSON_CIRCULAR_LIMIT → depth + heights rs ≤ CJSON_CIRCULAR_LIMIT) ∧
          (∀ j, Supply m ((owned (records rs)).length + j) → Supply m' j) ∨
        b = false ∧ Partial m₀ m' w lab (ds ++ us) ∧
          ¬ (Supply m (owned (records rs)).length ∧
            depth + heights rs ≤ CJSON_CIRCULAR_LIMIT))

/-- the outcome of the copy of a tree -/
def Copies (t : Tree) : Prop :=
  ∀ (depth : ℕ) (m : Memory Block), (∀ r ∈ t.records, Stored m r) →
    ∃ o m', (∀ n ≥ 2 * t.records.length,
        duplicateRec n (some t.address) depth true m = .ok (o, m')) ∧
      (o = none ∧ m'.block = m.block ∧
          ¬ (Supply m (owned t.records).length ∧ depth + t.height ≤ CJSON_CIRCULAR_LIMIT) ∨
        ∃ t', o = some t'.address ∧ Copied m m' t t' ∧ t'.records.length ≤ t.records.length ∧
          (depth ≤ CJSON_CIRCULAR_LIMIT → depth + t.height ≤ CJSON_CIRCULAR_LIMIT) ∧
          ∀ j, Supply m ((owned t.records).length + j) → Supply m' j)

theorem copies_node (a : ℕ) (lab : Label) {ks : List Tree} (hks : CopiesKids ks) : Copies (.node a lab ks) := by
  intro depth m hst
  have hrec : (Tree.node a lab ks).records = ⟨a, lab, ks.map Tree.address⟩ :: records ks := rfl
  rw [hrec] at hst
  have hhead : Stored m ⟨a, lab, ks.map Tree.address⟩ := hst _ (List.mem_cons_self ..)
  have hlen : (owned (Tree.node a lab ks).records).length =
      lab.owned.length + 1 + (owned (records ks)).length := by
    rw [hrec, owned_cons, List.length_append]
    rfl
  have hheight : (Tree.node a lab ks).height = heights ks := rfl
  rcases newCopy_cases hhead with ⟨m', hblock, hno, hrun⟩ | ⟨w, m₁, lab', hP, hsame, hs, hrun⟩
  · refine ⟨none, m', fun n hn => ?_, Or.inl ⟨rfl, hblock, fun hall => hno ?_⟩⟩
    · rw [hrec, List.length_cons] at hn
      obtain ⟨n, rfl⟩ : ∃ k, n = k + 1 := ⟨n - 1, by omega⟩
      exact hrun n (by omega) depth true
    · rw [hlen] at hall
      exact hall.1.mono
  · obtain ⟨b, m₂, us, hcopy, hle, hres⟩ := hks depth m m₁ w lab' [] hP
      (fun r hr => hst r (List.mem_cons_of_mem _ hr)) hhead.chain.linked
    have hstart : ∀ n ≥ 2 * (Tree.node a lab ks).records.length,
        duplicateRec n (some a) depth true m = (do
          if b then return some w
          else do
            delete (n - 1) (some w)
            return none : Prog Block (Option ℕ)) m₂ := by
      intro n hn
      rw [hrec, List.length_cons] at hn
      obtain ⟨n, rfl⟩ : ∃ k, n = k + 1 := ⟨n - 1, by omega⟩
      exact (hrun n depth true).trans (bind_of_ok (hcopy n (by omega)) _)
    rcases hres with ⟨rfl, hcont, hgrown, hsingle, hstored, hborrowed, hdeep, hsup⟩ | ⟨rfl, hP₂, hno⟩
    · refine ⟨some w, m₂, hstart, Or.inr ⟨.node w lab' us, rfl, ⟨?_, ?_, ?_, hsingle, ?_⟩, ?_, hdeep,
        fun j hj => ?_⟩⟩
      · rw [Tree.content, Tree.content, hsame.face, hcont]
      · simpa [records_node] using hgrown
      · simpa [records_node] using hstored
      · intro r hr b hb
        rcases List.mem_cons.mp hr with rfl | hr
        · refine ⟨⟨a, lab, ks.map Tree.address⟩, List.mem_cons_self .., ?_⟩
          rw [← hsame.borrowed]
          exact hb
        · obtain ⟨r₀, hr₀, hb₀⟩ := hborrowed r hr b hb
          exact ⟨r₀, List.mem_cons_of_mem _ hr₀, hb₀⟩
      · exact Nat.succ_le_succ hle
      · rw [hlen, add_assoc] at hj
        exact hsup j (hs _ hj)
    · obtain ⟨m₃, hdel, hblock⟩ := hP₂.delete
      refine ⟨none, m₃, fun n hn => (hstart n hn).trans ?_, Or.inl ⟨rfl, hblock, fun hall => hno ?_⟩⟩
      · rw [hrec, List.length_cons] at hn
        exact (bind_of_ok (hdel (n - 1) (by rw [List.nil_append]; omega)) _).trans rfl
      · rw [hlen] at hall
        exact ⟨hs _ hall.1, hall.2⟩

theorem Stored.grow (h : Stored m₀ r) (hk : ∀ b ∈ r.kids, m₀.block b ≠ none)
    (hg : Grown m₀ m X) : Stored m r := by
  refine ⟨?_, ?_, ?_, fun e he => ?_⟩
  · rw [fieldsAt_congr (hg.known (h.live (List.mem_cons_self ..)))]
    exact h.fields
  · rw [linkAt_congr _ (hg.known (h.live (List.mem_cons_self ..)))]
    exact h.child
  · exact h.chain.congr (fun b hb => linkAt_congr _ (hg.known (hk b hb)))
      (fun b hb => linkAt_congr _ (hg.known (hk b hb)))
  · have hlive : m₀.block e.1 ≠ none := by
      rw [block_ne_none_iff, h.texts e he]
      exact Or.inr rfl
    rw [textAt_congr (hg.known hlive)]
    exact h.texts e he

theorem Partial.of_block (h : Partial m₀ m w lab ds) (hb : m₁.block = m.block) :
    Partial m₀ m₁ w lab ds := by
  obtain ⟨block, answers⟩ := m
  obtain ⟨block', answers'⟩ := m₁
  cases hb
  exact ⟨⟨h.grown.nodup, h.grown.fresh, h.grown.live, h.grown.kept⟩, h.fields, h.texts, h.child,
    h.single, h.segment, fun r hr => ⟨(h.stored r hr).fields, (h.stored r hr).child,
      (h.stored r hr).chain, (h.stored r hr).texts⟩⟩

/-- **Children are copied.**  By induction along the children; each copy is hung behind the copies
before it. -/
theorem copiesKids (rs : List Tree) : CopiesKids rs := by
  induction rs using Tree.inductList with
  | nil =>
    intro depth m₀ m w lab ds hP _ _
    obtain ⟨m', hrun, hgrown, hsingle, hstored, hsup⟩ := hP.close
    refine ⟨true, m', [], fun n _ => hrun n depth, le_rfl, Or.inl ⟨rfl, rfl, ?_, hsingle, ?_,
      (fun r hr => nomatch hr), fun h => h, fun j hj => hsup j ?_⟩⟩
    · rwa [List.append_nil]
    · rwa [List.append_nil]
    · exact (by rwa [records_nil, owned, List.flatMap_nil, List.length_nil, zero_add] at hj :
        Supply m j)
  | cons a labs ks rs ihks ihrs =>
    intro depth m₀ m w lab ds hP hst hlinked
    have hrec : (Tree.node a labs ks).records = ⟨a, labs, ks.map Tree.address⟩ :: records ks := rfl
    rw [records_cons] at hst
    have hpos : 0 < (Tree.node a labs ks).records.length := by
      rw [hrec]
      exact Nat.succ_pos _
    by_cases hdepth : depth ≥ CJSON_CIRCULAR_LIMIT
    · refine ⟨false, m, [], fun n hn => ?_, Nat.zero_le _, Or.inr ⟨rfl, ?_, fun hall => ?_⟩⟩
      · obtain ⟨n, rfl⟩ : ∃ k, n = k + 1 := ⟨n - 1, by omega⟩
        rw [List.map_cons, List.head?_cons, copyChildren, if_pos hdepth]
        rfl
      · rwa [List.append_nil]
      · have := hall.2
        rw [heights] at this
        omega
    · have hread : ∀ r ∈ (Tree.node a labs ks).records, Stored m r := by
        intro r hr
        refine (hst r (List.mem_append_left _ hr)).grow (fun b hb => ?_) hP.grown
        have hmem : b ∈ kids (records [.node a labs ks]) := by
          rw [records_cons, records_nil, List.append_nil]
          exact List.mem_flatMap.mpr ⟨r, hr, hb⟩
        obtain ⟨r', hr', rfl⟩ := List.mem_map.mp
          ((records_parents [.node a labs ks]).mem_iff.mp (List.mem_append_right _ hmem))
        rw [records_cons, records_nil, List.append_nil] at hr'
        exact (hst r' (List.mem_append_left _ hr')).live (List.mem_cons_self ..)
      obtain ⟨o, m₁, hrun, hout⟩ := copies_node a labs ihks (depth + 1) m hread
      have hstart : ∀ n > 2 * (records (.node a labs ks :: rs)).length,
          copyChildren n depth w (ds.map Tree.address).getLast?
            ((Tree.node a labs ks :: rs).map Tree.address).head? m = (do
              match o with
              | none => return false
              | some newchild => do
                match (ds.map Tree.address).getLast? with
                | none => setChild w (some newchild)
                | some last => do
                  setNext last (some newchild)
                  setPrev newchild (some last)
                copyChildren (n - 1) depth w (some newchild) (← next a) : Prog Block Bool) m₁ := by
        intro n hn
        rw [records_cons, List.length_append] at hn
        obtain ⟨n, rfl⟩ : ∃ k, n = k + 1 := ⟨n - 1, by omega⟩
        rw [List.map_cons, List.head?_cons, copyChildren, if_neg hdepth]
        exact bind_of_ok (hrun n (by omega)) _
      have hlen : (owned (records (.node a labs ks :: rs))).length =
          (owned (Tree.node a labs ks).records).length + (owned (records rs)).length := by
        rw [records_cons, owned_append, List.length_append]
      rcases hout with ⟨rfl, hblock, hno⟩ | ⟨t', rfl, hcopy, hle, hdeep, hsup⟩
      · refine ⟨false, m₁, [], fun n hn => (hstart n hn).trans rfl, Nat.zero_le _,
          Or.inr ⟨rfl, ?_, fun hall => hno ?_⟩⟩
        · rw [List.append_nil]
          exact hP.of_block hblock
        · obtain ⟨hs, hh⟩ := hall
          rw [hlen] at hs
          rw [heights] at hh
          exact ⟨hs.mono, by omega⟩
      · have hP' := hP.link hcopy.grown hcopy.stored hcopy.single
        have hwi : IsItem m₁ w := by
          have hw := (hP.grow hcopy.grown w (by rw [Partial.owned_eq]; exact List.mem_cons_self ..)).1
          exact (isItem_congr hw).mpr hP.isItem
        have hti : IsItem m₁ t'.address := by
          cases t' with
          | node b lab' ks' => exact (hcopy.stored _ (List.mem_cons_self ..)).isItem
        have hdone : ∀ last ∈ ds.map Tree.address, IsItem m₁ last := by
          intro last hlast
          obtain ⟨r, hr, rfl⟩ := List.mem_map.mp
            ((records_parents ds).mem_iff.mp (List.mem_append_left _ hlast))
          have hmem : r.address ∈ owned (records [.node w lab ds]) := by
            rw [Partial.owned_eq]
            exact List.mem_cons_of_mem _ (List.mem_append_right _ (address_mem_owned hr))
          exact (isItem_congr (hP.grow hcopy.grown _ hmem).1).mpr (hP.stored r hr).isItem
        generalize hm₂ : hang w (ds.map Tree.address).getLast? t'.address m₁ = m₂ at hP'
        have hgo : ∀ k : Unit → Prog Block Bool, (match (ds.map Tree.address).getLast? with
            | none => setChild w (some t'.address) >>= k
            | some last => setNext last (some t'.address) >>= fun _ =>
              setPrev t'.address (some last) >>= k) m₁ = k () m₂ := by
          intro k
          rw [← hm₂]
          cases hlast : (ds.map Tree.address).getLast? with
          | none => exact bind_of_ok (setChild_eq hwi _) _
          | some last =>
            have hli : IsItem m₁ last := hdone last (List.mem_of_getLast? hlast)
            exact (bind_of_ok (setNext_eq hli _) _).trans
              (bind_of_ok (setPrev_eq (by simpa using hti) _) _)
        have ha : m₀.block a ≠ none :=
          (hst ⟨a, labs, ks.map Tree.address⟩ (List.mem_cons_self ..)).live (List.mem_cons_self ..)
        have hanext : next a m₂ = .ok ((rs.map Tree.address).head?, m₂) := by
          have hblock := hP'.grown.known ha
          have hai : IsItem m₂ a := (isItem_congr hblock).mpr
            (hst ⟨a, labs, ks.map Tree.address⟩ (List.mem_cons_self ..)).isItem
          rw [next_eq hai, linkAt_congr _ hblock]
          exact congrArg (fun p => Except.ok (p, m₂)) hlinked.1
        have hs₂ : ∀ j, Supply m₁ j → Supply m₂ j := by
          intro j hj
          rw [← hm₂]
          cases hlast : (ds.map Tree.address).getLast? with
          | none => exact supply_putLink hj hwi
          | some last =>
            have hli : IsItem m₁ last := hdone last (List.mem_of_getLast? hlast)
            exact supply_putLink (supply_putLink hj hli) (by simpa using hti)
        obtain ⟨b, m₃, us, hcopies, hle', hres⟩ := ihrs depth m₀ m₂ w lab (ds ++ [t']) hP'
          (fun r hr => hst r (List.mem_append_right _ hr)) hlinked.2
        have hlast : ((ds ++ [t']).map Tree.address).getLast? = some t'.address := by
          rw [List.map_append]
          exact List.getLast?_concat
        rw [hlast] at hcopies
        rw [List.append_assoc, List.singleton_append] at hres
        refine ⟨b, m₃, t' :: us, fun n hn => (hstart n hn).trans ?_, ?_, ?_⟩
        · rw [records_cons, List.length_append] at hn
          refine (hgo fun _ => next a >>= copyChildren (n - 1) depth w (some t'.address)).trans ?_
          exact (bind_of_ok hanext _).trans (hcopies (n - 1) (by omega))
        · rw [records_cons, records_cons, List.length_append, List.length_append]
          omega
        · rcases hres with ⟨rfl, hcont, hgrown, hsingle, hstored, hborrowed, hdeep', hsup'⟩ |
            ⟨rfl, hP₃, hno⟩
          · refine Or.inl ⟨rfl, ?_, hgrown, hsingle, hstored, ?_, ?_, ?_⟩
            · rw [contents, contents, hcont, hcopy.content]
            · intro r hr b hb
              rcases List.mem_append.mp hr with hr | hr
              · obtain ⟨r₀, hr₀, hb₀⟩ := hcopy.borrowed r hr b hb
                exact ⟨r₀, List.mem_append_left _ hr₀, hb₀⟩
              · obtain ⟨r₀, hr₀, hb₀⟩ := hborrowed r hr b hb
                exact ⟨r₀, List.mem_append_right _ hr₀, hb₀⟩
            · intro hd
              have h1 := hdeep (by omega)
              have h2 := hdeep' hd
              rw [heights]
              omega
            · intro j hj
              rw [hlen, add_assoc] at hj
              exact hsup' j (hs₂ _ (hsup _ hj))
          · refine Or.inr ⟨rfl, hP₃, fun hall => hno ?_⟩
            obtain ⟨hs, hh⟩ := hall
            rw [hlen] at hs
            rw [heights] at hh
            exact ⟨hs₂ _ (hsup _ hs), by omega⟩

/-- **A tree is copied.** -/
theorem copies (t : Tree) : Copies t := by
  cases t with
  | node a lab ks => exact copies_node a lab (copiesKids ks)

end CJSON.Heap
